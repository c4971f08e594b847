import Mathlib.Data.List.Basic
import Mathlib.Data.List.Nodup
import Mathlib.Data.List.Perm.Subperm
import Std.Data.ExtTreeMap
/-!
# Ordered maps

Facts about `Std.ExtTreeMap` as a map read with `m[k]?`, with key equality in
place of the comparison. Ordered maps stand for the `BTreeMap`s of a program,
and for its hash maps where nothing depends on their order.
-/

namespace Lib

open Std

variable {κ α β : Type} {cmp : κ → κ → Ordering} [TransCmp cmp]

theorem mem_iff_get? {m : ExtTreeMap κ α cmp} {k : κ} : k ∈ m ↔ ∃ v, m[k]? = some v := by
  rw [ExtTreeMap.mem_iff_isSome_getElem?, Option.isSome_iff_exists]

variable [LawfulEqCmp cmp] [DecidableEq κ]

theorem get?_insert (m : ExtTreeMap κ α cmp) (k a : κ) (v : α) :
    (m.insert k v)[a]? = if a = k then some v else m[a]? := by
  rw [ExtTreeMap.getElem?_insert]
  by_cases h : a = k
  · subst h
    simp [ReflCmp.compare_self]
  · have : ¬ cmp k a = .eq := fun e => h (LawfulEqCmp.eq_of_compare e).symm
    simp [h, this]

theorem get?_erase (m : ExtTreeMap κ α cmp) (k a : κ) :
    (m.erase k)[a]? = if a = k then none else m[a]? := by
  rw [ExtTreeMap.getElem?_erase]
  by_cases h : a = k
  · subst h
    simp [ReflCmp.compare_self]
  · have : ¬ cmp k a = .eq := fun e => h (LawfulEqCmp.eq_of_compare e).symm
    simp [h, this]

/-- The map without the keys that satisfy `p`. -/
def eraseWhere (m : ExtTreeMap κ α cmp) (p : κ → Bool) : ExtTreeMap κ α cmp :=
  (m.keys.filter p).foldl (fun m k => m.erase k) m

theorem get?_foldl_erase (ks : List κ) (m : ExtTreeMap κ α cmp) (a : κ) :
    (ks.foldl (fun m k => m.erase k) m)[a]? = if a ∈ ks then none else m[a]? := by
  induction ks generalizing m with
  | nil => simp
  | cons k ks ih =>
    rw [List.foldl_cons, ih, get?_erase]
    by_cases h1 : a ∈ ks <;> by_cases h2 : a = k <;> simp [h1, h2]

theorem get?_eraseWhere (m : ExtTreeMap κ α cmp) (p : κ → Bool) (a : κ) :
    (eraseWhere m p)[a]? = if p a then none else m[a]? := by
  rw [eraseWhere, get?_foldl_erase]
  by_cases hm : a ∈ m
  · simp [ExtTreeMap.mem_keys, hm]
  · simp [ExtTreeMap.mem_keys, hm]

/-- The map of what `f` makes of each entry, without those it makes nothing of. -/
def collect (f : κ → α → Option β) (m : ExtTreeMap κ α cmp) : ExtTreeMap κ β cmp :=
  m.foldl (fun acc k v => match f k v with
    | some b => acc.insert k b
    | none => acc) ∅

theorem get?_foldl_collect (f : κ → α → Option β) (l : List (κ × α))
    (hl : l.Pairwise fun x y => x.1 ≠ y.1) (acc : ExtTreeMap κ β cmp) (a : κ) :
    (l.foldl (fun acc x => match f x.1 x.2 with
        | some b => acc.insert x.1 b
        | none => acc) acc)[a]? =
      (l.find? fun x => x.1 = a).elim acc[a]? fun x => (f x.1 x.2).or acc[a]? := by
  induction l generalizing acc with
  | nil => rfl
  | cons x l ih =>
    obtain ⟨hx, hl⟩ := List.pairwise_cons.1 hl
    rw [List.foldl_cons, ih hl]
    by_cases h : x.1 = a
    · subst h
      have hnone : (l.find? fun y => y.1 = x.1) = none := by
        rw [List.find?_eq_none]
        intro y hy
        simpa using (hx y hy).symm
      rw [hnone, List.find?_cons_of_pos (by simp)]
      cases hf : f x.1 x.2 <;> simp [hf]
    · rw [List.find?_cons_of_neg (by simp [h])]
      cases hf : f x.1 x.2 <;> simp [get?_insert, Ne.symm h]

theorem get?_collect (f : κ → α → Option β) (m : ExtTreeMap κ α cmp) (a : κ) :
    (collect f m)[a]? = m[a]?.bind (f a) := by
  have hd : m.toList.Pairwise fun x y => x.1 ≠ y.1 := by
    refine (ExtTreeMap.distinct_keys_toList (t := m)).imp fun h e => h ?_
    rw [e]
    exact ReflCmp.compare_self
  rw [collect, ExtTreeMap.foldl_eq_foldl_toList, get?_foldl_collect f _ hd]
  cases hv : m[a]? with
  | none =>
    have hnone : (m.toList.find? fun x => x.1 = a) = none := by
      rw [List.find?_eq_none]
      intro x hx
      have hx' : m[x.1]? = some x.2 := ExtTreeMap.mem_toList_iff_getElem?_eq_some.1 hx
      intro h
      simp only [decide_eq_true_eq] at h
      rw [h, hv] at hx'
      cases hx'
    simp [hnone]
  | some v =>
    obtain ⟨x, hx⟩ : ∃ x, (m.toList.find? fun x => x.1 = a) = some x := by
      rw [← Option.isSome_iff_exists, List.find?_isSome]
      exact ⟨(a, v), ExtTreeMap.mem_toList_iff_getElem?_eq_some.2 hv, by simp⟩
    have hxa : x.1 = a := by simpa using List.find?_some hx
    have hxv : m[x.1]? = some x.2 :=
      ExtTreeMap.mem_toList_iff_getElem?_eq_some.1 (List.mem_of_find?_eq_some hx)
    rw [hxa, hv] at hxv
    cases hxv
    simp [hx, hxa]

/-- `base` with the entries of `m` whose keys satisfy `p`, under the keys `f`
makes of them. -/
def insertMoved (base m : ExtTreeMap κ α cmp) (p : κ → Bool) (f : κ → κ) : ExtTreeMap κ α cmp :=
  base.insertMany ((m.toList.filter fun x => p x.1).map fun x => (f x.1, x.2))

section Moved
variable {base m : ExtTreeMap κ α cmp} {p : κ → Bool} {f : κ → κ}

theorem get?_insertMoved_other {a : κ} (h : ∀ k, p k = true → m[k]? ≠ none → f k ≠ a) :
    (insertMoved base m p f)[a]? = base[a]? := by
  have : LawfulBEqCmp cmp := ⟨by simp [LawfulEqCmp.compare_eq_iff_eq]⟩
  rw [insertMoved]
  apply ExtTreeMap.getElem?_insertMany_list_of_contains_eq_false
  rw [Bool.eq_false_iff]
  intro hc
  simp only [List.map_map, List.contains_eq_mem, List.mem_map, List.mem_filter, Function.comp_apply,
    decide_eq_true_eq] at hc
  obtain ⟨⟨k, v⟩, ⟨hm, hp⟩, he⟩ := hc
  refine h k hp ?_ he
  rw [ExtTreeMap.mem_toList_iff_getElem?_eq_some.1 hm]
  simp

theorem get?_insertMoved {k : κ} {v : α} (hinj : ∀ a b, p a = true → p b = true → f a = f b → a = b) (hp : p k = true)
    (hv : m[k]? = some v) : (insertMoved base m p f)[f k]? = some v := by
  have : LawfulBEqCmp cmp := ⟨by simp [LawfulEqCmp.compare_eq_iff_eq]⟩
  rw [insertMoved]
  refine ExtTreeMap.getElem?_insertMany_list_of_mem (k := f k) ReflCmp.compare_self ?_ ?_
  · have hd : (m.toList.filter fun x => p x.1).Pairwise fun x y => ¬ cmp x.1 y.1 = .eq :=
      (ExtTreeMap.distinct_keys_toList (t := m)).filter _
    rw [List.pairwise_map]
    refine hd.imp_of_mem ?_
    intro x y hx hy hne he
    refine hne ?_
    rw [hinj x.1 y.1 (by simpa using (List.mem_filter.1 hx).2) (by simpa using (List.mem_filter.1 hy).2)
      (LawfulEqCmp.eq_of_compare he)]
    exact ReflCmp.compare_self
  · exact List.mem_map.2 ⟨(k, v), List.mem_filter.2 ⟨ExtTreeMap.mem_toList_iff_getElem?_eq_some.2 hv, hp⟩, rfl⟩

end Moved

/-! ## Many entries put in -/

section Many
variable {m m' : ExtTreeMap κ α cmp} {l : List (κ × α)}

/-- The entries that `g` has for the keys of a list. -/
theorem get?_foldl_insert {f : ExtTreeMap κ α cmp → κ → ExtTreeMap κ α cmp} (g : κ → Option α)
    (hf : ∀ m k, f m k = (g k).elim m (m.insert k)) (ks : List κ) (m : ExtTreeMap κ α cmp) (a : κ) :
    (ks.foldl f m)[a]? = if a ∈ ks then (g a).or m[a]? else m[a]? := by
  induction ks generalizing m with
  | nil => simp
  | cons k ks ih =>
    rw [List.foldl_cons, ih, hf]
    by_cases hk : a = k
    · subst hk
      cases hg : g a <;> simp
    · cases hg : g k <;> simp [get?_insert, hk]

theorem get?_insertMany (h : (l.map Prod.fst).Nodup) (a : κ) (v : α) :
    (m.insertMany l)[a]? = some v ↔ (a, v) ∈ l ∨ ((∀ x ∈ l, x.1 ≠ a) ∧ m[a]? = some v) := by
  have : LawfulBEqCmp cmp := ⟨by simp [LawfulEqCmp.compare_eq_iff_eq]⟩
  have hne : l.Pairwise fun x y => ¬ cmp x.1 y.1 = .eq :=
    (List.pairwise_map.1 h).imp fun hne he => hne (LawfulEqCmp.eq_of_compare he)
  by_cases ha : ∃ v', (a, v') ∈ l
  · obtain ⟨v', hv'⟩ := ha
    rw [ExtTreeMap.getElem?_insertMany_list_of_mem ReflCmp.compare_self hne hv']
    constructor
    · rintro ⟨rfl⟩
      exact .inl hv'
    · rintro (hv | ⟨hnone, -⟩)
      · exact congrArg (some ∘ Prod.snd) (List.inj_on_of_nodup_map h hv' hv rfl)
      · exact absurd rfl (hnone _ hv')
  · have hnone : ∀ x ∈ l, x.1 ≠ a := fun x hx e => ha ⟨x.2, e ▸ hx⟩
    rw [ExtTreeMap.getElem?_insertMany_list_of_contains_eq_false (by simpa using fun v hv => ha ⟨v, hv⟩)]
    constructor
    · exact fun hv => .inr ⟨hnone, hv⟩
    · rintro (hv | ⟨-, hv⟩)
      · exact absurd ⟨v, hv⟩ ha
      · exact hv

theorem size_insertMany (h : (l.map Prod.fst).Nodup) (hnew : ∀ x ∈ l, m[x.1]? = none) :
    (m.insertMany l).size = m.size + l.length := by
  have : LawfulBEqCmp cmp := ⟨by simp [LawfulEqCmp.compare_eq_iff_eq]⟩
  apply ExtTreeMap.size_insertMany_list
    ((List.pairwise_map.1 h).imp fun hne he => hne (LawfulEqCmp.eq_of_compare he))
  intro a ha
  rw [Bool.eq_false_iff]
  intro hc
  simp only [List.contains_eq_mem, List.mem_map, decide_eq_true_eq] at hc
  obtain ⟨x, hx, rfl⟩ := hc
  obtain ⟨v, hv⟩ := mem_iff_get?.1 ha
  rw [hnew x hx] at hv
  cases hv

theorem size_le_of_subset (h : ∀ (k : κ) (v : α), m[k]? = some v → m'[k]? ≠ none) : m.size ≤ m'.size := by
  have : LawfulBEqCmp cmp := ⟨by simp [LawfulEqCmp.compare_eq_iff_eq]⟩
  rw [← ExtTreeMap.length_keys, ← ExtTreeMap.length_keys]
  have hnodup : m.keys.Nodup := by
    refine (ExtTreeMap.distinct_keys (t := m)).imp ?_
    intro a b hne he
    exact hne (he ▸ ReflCmp.compare_self)
  refine List.Subperm.length_le (hnodup.subperm ?_)
  intro k hk
  obtain ⟨v, hv⟩ := mem_iff_get?.1 (ExtTreeMap.mem_keys.1 hk)
  obtain ⟨v', hv'⟩ := Option.ne_none_iff_exists'.1 (h k v hv)
  exact ExtTreeMap.mem_keys.2 (mem_iff_get?.2 ⟨v', hv'⟩)

end Many

/-! ## Entries by number -/

section Numbered
variable {m : ExtTreeMap Nat α}

theorem toList_lt (m : ExtTreeMap Nat α) : m.toList.Pairwise fun x y => x.1 < y.1 :=
  (ExtTreeMap.ordered_keys_toList (t := m)).imp Nat.compare_eq_lt.1

/-- The entries of the map, in order. -/
theorem toList_eq_of_lt {l : List (Nat × α)} (hl : l.Pairwise fun x y => x.1 < y.1)
    (hm : ∀ k v, m[k]? = some v ↔ (k, v) ∈ l) : m.toList = l := by
  have hnodup : ∀ {l : List (Nat × α)}, (l.Pairwise fun x y => x.1 < y.1) → l.Nodup := fun h =>
    h.imp fun hlt he => Nat.ne_of_lt hlt (congrArg Prod.fst he)
  refine List.Perm.eq_of_pairwise ?_ (toList_lt m) hl ?_
  · intro a b _ _ hab hba
    exact absurd hab (Nat.lt_asymm hba)
  · refine (List.perm_ext_iff_of_nodup (hnodup (toList_lt m)) (hnodup hl)).2 fun x => ?_
    rw [← hm x.1 x.2]
    exact ExtTreeMap.mem_toList_iff_getElem?_eq_some

end Numbered

end Lib
