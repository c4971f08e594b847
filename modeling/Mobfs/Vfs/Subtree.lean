import Mathlib.Data.List.Sort
import Mathlib.Data.String.Basic
import Mobfs.Lib.Keyed
import Mobfs.Lib.Maps
import Mobfs.Lib.Utf8
import Mobfs.Vfs.Renames
/-!
# Subtrees of a table

The tables of the mount are kept by path, and a rename or removal takes the keys of a
whole subtree: the path itself and the range of the keys that begin with it and a slash.
`getElem?_removeSubtree` and `getElem?_moveSubtree` say what is then at each path.
-/

namespace Mobfs

open Lib Std
open WriteBack (matching)

variable {α : Type}

/-- `subtree_keys`. -/
def subtreeKeys (map : ExtTreeMap String α) (path : String) : List String :=
  let slash := path ++ "/"
  (if path ∈ map then [path] else []) ++
    ((map.keys.dropWhile fun key => decide (key < slash)).takeWhile fun key => slash.toList.isPrefixOf key.toList)

/-- What lies between a prefix and a list that begins with it begins with it. -/
theorem prefix_of_between {pre a b : List Char} (h₁ : ¬ a < pre) (h₂ : a < b) (hb : pre <+: b) : pre <+: a := by
  induction pre generalizing a b with
  | nil => exact List.nil_prefix
  | cons c pre ih =>
    obtain ⟨r, rfl⟩ := hb
    cases a with
    | nil => exact absurd (List.nil_lt_cons c pre) h₁
    | cons d a =>
      rw [List.cons_append] at h₂
      rw [List.cons_lt_cons_iff] at h₁ h₂
      rcases h₂ with hdc | ⟨rfl, h₂⟩
      · exact absurd (.inl hdc) h₁
      · obtain ⟨q, rfl⟩ := ih (fun h => h₁ (.inr ⟨rfl, h⟩)) h₂ ⟨r, rfl⟩
        exact ⟨q, rfl⟩

theorem keys_lt (m : ExtTreeMap String α) : m.keys.Pairwise fun a b => a.toList < b.toList := by
  refine (ExtTreeMap.ordered_keys (t := m)).imp fun {a b} h => ?_
  rw [← String.lt_iff_toList_lt]
  exact compareOfLessAndEq_eq_lt.1 h

theorem not_lt_of_isPrefix {pre a : List Char} (h : pre <+: a) : ¬ a < pre := by
  induction pre generalizing a with
  | nil => exact List.not_lt_nil a
  | cons c pre ih =>
    obtain ⟨r, rfl⟩ := h
    rw [List.cons_append, List.cons_lt_cons_iff]
    rintro (hlt | ⟨-, hlt⟩)
    · exact absurd hlt (Char.lt_irrefl c)
    · exact ih ⟨r, rfl⟩ hlt

/-- Only the path itself is not in the range, and it comes before what is below it. -/
theorem filter_matching (m : ExtTreeMap String α) (path : String) :
    m.keys.filter (matching path) = (if path ∈ m then [path] else []) ++ m.keys.filter (below path) := by
  have hlt : ∀ {key : String}, below path key = true → path < key := by
    intro key h
    obtain ⟨r, hr⟩ := below_iff.1 h
    rw [String.lt_iff_toList_lt, hr]
    have hnil : path.toList ++ [] < path.toList ++ '/' :: r := List.append_left_lt (List.nil_lt_cons '/' r)
    rwa [List.append_nil] at hnil
  have hself : ∀ key, key ∈ (if path ∈ m then [path] else []) ↔ key ∈ m ∧ key = path := by
    intro key
    split <;> grind
  have hkeys : m.keys.Pairwise (· < ·) := (keys_lt m).imp String.lt_iff_toList_lt.2
  have happend : ((if path ∈ m then [path] else []) ++ m.keys.filter (below path)).Pairwise (· < ·) := by
    refine List.pairwise_append.2 ⟨by split <;> simp, hkeys.filter _, fun a ha b hb => ?_⟩
    rw [((hself a).1 ha).2]
    exact hlt (List.mem_filter.1 hb).2
  refine (hkeys.filter _).eq_of_mem_iff happend fun key => ?_
  simp only [List.mem_filter, List.mem_append, hself, ExtTreeMap.mem_keys, matching_iff]
  grind

/-- The range scan finds what a test of each key finds. -/
theorem subtreeKeys_eq_filter (m : ExtTreeMap String α) (path : String) :
    subtreeKeys m path = m.keys.filter (matching path) := by
  -- The keys are in order, so both ends of the range can be found by a test of each key.
  have hdrop : (m.keys.dropWhile fun key => decide (key < path ++ "/")) =
      m.keys.filter fun key => !decide (key < path ++ "/") := by
    refine dropWhile_eq_filter (keys_lt m) fun a _ b _ hab hb => ?_
    simp only [decide_eq_true_eq, String.lt_iff_toList_lt] at hb ⊢
    exact List.lt_trans hab hb
  have htake : (m.keys.filter fun key => !decide (key < path ++ "/")).takeWhile
      (fun key => (path ++ "/").toList.isPrefixOf key.toList) =
      (m.keys.filter fun key => !decide (key < path ++ "/")).filter fun key => (path ++ "/").toList.isPrefixOf key.toList := by
    refine takeWhile_eq_filter ((keys_lt m).filter _) fun a ha b _ hab hb => ?_
    simp only [List.mem_filter, Bool.not_eq_true', decide_eq_false_iff_not, String.lt_iff_toList_lt] at ha
    rw [List.isPrefixOf_iff_prefix] at hb ⊢
    exact prefix_of_between ha.2 hab hb
  have hbelow : ∀ key, (path ++ "/").toList.isPrefixOf key.toList = below path key := fun key => by simp [below]
  have hrange : (fun key => below path key && !decide (key < path ++ "/")) = below path := by
    funext key
    rw [Bool.and_eq_left_iff_imp, Bool.not_eq_true', decide_eq_false_iff_not, ← hbelow, List.isPrefixOf_iff_prefix,
      String.lt_iff_toList_lt]
    exact not_lt_of_isPrefix
  rw [filter_matching, subtreeKeys, hdrop, htake, List.filter_filter]
  simp only [hbelow, hrange]

theorem mem_subtreeKeys {m : ExtTreeMap String α} {path key : String} :
    key ∈ subtreeKeys m path ↔ key ∈ m ∧ matching path key = true := by
  rw [subtreeKeys_eq_filter, List.mem_filter, ExtTreeMap.mem_keys]

theorem nodup_subtreeKeys (m : ExtTreeMap String α) (path : String) : (subtreeKeys m path).Nodup := by
  rw [subtreeKeys_eq_filter]
  exact ExtTreeMap.nodup_keys.filter _

/-- The keys are in the order of their bytes, and the range scan, which stops at the first key
without the prefix, finds the path and all that begins with it and a slash. -/
theorem subtree_by_range (map : ExtTreeMap String α) (path : String) :
    (map.keys.Pairwise fun a b => utf8Bytes a < utf8Bytes b) ∧
      subtreeKeys map path = map.keys.filter (fun key => key = path || (path ++ "/").toList.isPrefixOf key.toList) ∧
      (subtreeKeys map path).Nodup ∧
      ∀ key, key ∈ subtreeKeys map path ↔ key ∈ map ∧ (key = path ∨ (path ++ "/").toList <+: key.toList) := by
  have hmatch : matching path = fun key => key = path || (path ++ "/").toList.isPrefixOf key.toList := by
    funext key
    simp [matching, below]
  refine ⟨(keys_lt map).imp fun h => utf8Bytes_lt (String.lt_iff_toList_lt.2 h), ?_, nodup_subtreeKeys map path, fun key => ?_⟩
  · rw [subtreeKeys_eq_filter, hmatch]
  · rw [mem_subtreeKeys, hmatch, Bool.or_eq_true, decide_eq_true_eq, List.isPrefixOf_iff_prefix]

/-! ## Removing and moving a subtree -/

/-- `for key in subtree_keys(&map, path) { map.remove(&key); }`. -/
def removeSubtree (map : ExtTreeMap String α) (path : String) : ExtTreeMap String α :=
  (subtreeKeys map path).foldl (fun map key => map.erase key) map

/-- `if let Some(value) = map.remove(&key) { map.insert(format!("{to}{}", &key[from.len()..]), value); }`. -/
def moveKey (src dst : String) (map : ExtTreeMap String α) (key : String) : ExtTreeMap String α :=
  match map[key]? with
  | some value => (map.erase key).insert (rebase src dst key) value
  | none => map.erase key

/-- What lies under `dst` goes, and what lies under `src` takes its place. -/
def moveSubtree (map : ExtTreeMap String α) (src dst : String) : ExtTreeMap String α :=
  let map := removeSubtree map dst
  (subtreeKeys map src).foldl (moveKey src dst) map

theorem getElem?_removeSubtree (m : ExtTreeMap String α) (path p : String) :
    (removeSubtree m path)[p]? = if matching path p then none else m[p]? := by
  rw [removeSubtree, get?_foldl_erase]
  simp only [mem_subtreeKeys]
  by_cases hp : p ∈ m
  · simp [hp]
  · have hnone : m[p]? = none := by simpa using hp
    simp [hnone]

section Move
variable {src dst : String} {m : ExtTreeMap String α}

theorem getElem?_moveKey (m : ExtTreeMap String α) (key p : String) :
    (moveKey src dst m key)[p]? =
      if p = rebase src dst key ∧ m[key]? ≠ none then m[key]? else if p = key then none else m[p]? := by
  unfold moveKey
  split
  · rename_i v hv
    rw [get?_insert, get?_erase]
    simp [hv]
  · rename_i hv
    rw [get?_erase]
    simp [hv]

/-- Moving keys that lie under `src` and not under `dst`: what is then at the new names,
at the old ones and elsewhere. -/
theorem foldl_moveKey {keys : List String} (hd : keys.Nodup) (hsrc : ∀ k ∈ keys, matching src k = true)
    (hdst : ∀ k ∈ keys, matching dst k = false) :
    (∀ k ∈ keys, ∀ v, m[k]? = some v → (keys.foldl (moveKey src dst) m)[rebase src dst k]? = some v) ∧
    (∀ p ∈ keys, (keys.foldl (moveKey src dst) m)[p]? = none) ∧
    ∀ p, p ∉ keys → (∀ k ∈ keys, m[k]? ≠ none → rebase src dst k ≠ p) →
      (keys.foldl (moveKey src dst) m)[p]? = m[p]? := by
  induction keys generalizing m with
  | nil => simp
  | cons k keys ih =>
    obtain ⟨hk, hd⟩ := List.nodup_cons.1 hd
    have hks := hsrc k List.mem_cons_self
    have hkd := hdst k List.mem_cons_self
    have hmoved : ∀ x, matching dst x = false → rebase src dst k ≠ x := by
      rintro x hx rfl
      rw [matching_rebase dst hks] at hx
      cases hx
    have hrest : ∀ x ∈ keys, matching src x = true ∧ matching dst x = false := fun x hx =>
      ⟨hsrc x (List.mem_cons_of_mem _ hx), hdst x (List.mem_cons_of_mem _ hx)⟩
    have hkeep : ∀ x ∈ keys, (moveKey src dst m k)[x]? = m[x]? := by
      intro x hx
      have hne : x ≠ k := by
        rintro rfl
        exact hk hx
      rw [getElem?_moveKey, if_neg fun h => hmoved x (hrest x hx).2 h.1.symm, if_neg hne]
    obtain ⟨hnew, hgone, hother⟩ := ih (m := moveKey src dst m k) hd (fun x hx => (hrest x hx).1) fun x hx => (hrest x hx).2
    rw [List.foldl_cons]
    refine ⟨?_, ?_, ?_⟩
    · intro x hx v hv
      rcases List.mem_cons.1 hx with rfl | hx
      · rw [hother]
        · rw [getElem?_moveKey, if_pos ⟨rfl, by simp [hv]⟩, hv]
        · exact fun hm => hmoved _ (hrest _ hm).2 rfl
        · intro y hy _ he
          exact hk (rebase_inj (hrest y hy).1 hks he ▸ hy)
      · exact hnew x hx v (by rw [hkeep x hx, hv])
    · intro p hp
      rcases List.mem_cons.1 hp with rfl | hp
      · rw [hother p hk]
        · rw [getElem?_moveKey, if_neg fun h => hmoved p hkd h.1.symm, if_pos rfl]
        · intro y hy _ he
          rw [← he, matching_rebase dst (hrest y hy).1] at hkd
          cases hkd
      · exact hgone p hp
    · intro p hp hno
      rw [List.mem_cons, not_or] at hp
      rw [hother p hp.2 fun y hy hv => hno y (List.mem_cons_of_mem _ hy) (by rwa [← hkeep y hy]), getElem?_moveKey]
      rw [if_neg fun h => hno k List.mem_cons_self h.2 h.1.symm, if_neg hp.1]

/-- What lies under the new name is what lay under the old one, and was not removed with
the new one before it; nothing is left under the old name. -/
theorem getElem?_moveSubtree (m : ExtTreeMap String α) (src dst p : String) :
    (moveSubtree m src dst)[p]? =
      if matching dst p then (if matching dst (rebase dst src p) then none else m[rebase dst src p]?)
      else if matching src p then none else m[p]? := by
  have hkeys : ∀ k, k ∈ subtreeKeys (removeSubtree m dst) src ↔
      matching src k = true ∧ matching dst k = false ∧ m[k]? ≠ none := by
    intro k
    have hmem : k ∈ removeSubtree m dst ↔ (removeSubtree m dst)[k]? ≠ none := by simp
    rw [mem_subtreeKeys, hmem, getElem?_removeSubtree]
    cases matching dst k <;> simp [and_comm]
  obtain ⟨hnew, hgone, hother⟩ := foldl_moveKey (m := removeSubtree m dst) (nodup_subtreeKeys (removeSubtree m dst) src)
    (fun k hk => ((hkeys k).1 hk).1) fun k hk => ((hkeys k).1 hk).2.1
  have hremoved : ∀ k, matching dst k = false → (removeSubtree m dst)[k]? = m[k]? := by
    intro k hk
    simp [getElem?_removeSubtree, hk]
  rw [moveSubtree]
  by_cases hp : matching dst p = true
  · have hback : rebase src dst (rebase dst src p) = p := rebase_rebase src hp
    have hpk : p ∉ subtreeKeys (removeSubtree m dst) src := fun h => by
      rw [((hkeys p).1 h).2.1] at hp
      cases hp
    have hnone : (removeSubtree m dst)[p]? = none := by simp [getElem?_removeSubtree, hp]
    rw [if_pos hp]
    by_cases hv : rebase dst src p ∈ subtreeKeys (removeSubtree m dst) src
    · obtain ⟨-, hd, hne⟩ := (hkeys _).1 hv
      obtain ⟨v, hv'⟩ := Option.ne_none_iff_exists'.1 hne
      have hmoved := hnew _ hv v (by rw [hremoved _ hd, hv'])
      rw [hback] at hmoved
      rw [if_neg (by simp [hd]), hv', hmoved]
    · rw [hother p hpk, hnone]
      · by_cases hd : matching dst (rebase dst src p) = true
        · rw [if_pos hd]
        · rw [if_neg hd]
          by_contra hne
          exact hv ((hkeys _).2 ⟨matching_rebase src hp, by simpa using hd, fun h => hne h.symm⟩)
      · rintro k hk - rfl
        rw [rebase_rebase dst ((hkeys k).1 hk).1] at hv
        exact hv hk
  · have hp' : matching dst p = false := by simpa using hp
    rw [if_neg hp]
    by_cases hs : matching src p = true
    · rw [if_pos hs]
      by_cases hk : p ∈ subtreeKeys (removeSubtree m dst) src
      · exact hgone p hk
      · have hnone : m[p]? = none := by
          by_contra hne
          exact hk ((hkeys p).2 ⟨hs, hp', hne⟩)
        rw [hother p hk, hremoved p hp', hnone]
        rintro k hk' - rfl
        exact hp (matching_rebase dst ((hkeys k).1 hk').1)
    · rw [if_neg hs, hother p fun h => hs ((hkeys p).1 h).1, hremoved p hp']
      rintro k hk' - rfl
      exact hp (matching_rebase dst ((hkeys k).1 hk').1)

end Move

end Mobfs
