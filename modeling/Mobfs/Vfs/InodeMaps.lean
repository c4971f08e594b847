import Mobfs.Vfs.Subtree
/-!
# The two maps of the inodes

The mount gives a number to every path it meets and keeps it in a map from paths to
numbers and one back. A removal takes the keys of a subtree out of both; a rename
removes what lies under the new name and moves the keys under the old one, one by one.

`Valid`: the maps are each other's inverse, the root is there, and the numbers are those
given out. Both maps together are the table of `Mobfs.Vfs.Renames` (`toInodes`).
-/

namespace Mobfs

open Lib Std
open WriteBack (matching)

def rootIno : Nat := 1

/-- `Inodes`, with both maps. -/
structure InodeMaps where
  byPath : ExtTreeMap String Nat
  byIno : ExtTreeMap Nat String
  next : Nat

namespace InodeMaps

/-- `Inodes::new`. -/
def new : InodeMaps where
  byPath := (∅ : ExtTreeMap String Nat).insert "" rootIno
  byIno := (∅ : ExtTreeMap Nat String).insert rootIno ""
  next := rootIno + 1

/-- `ino`: the number of a path, a new one if it has none. -/
def ino (t : InodeMaps) (path : String) : InodeMaps × Nat :=
  match t.byPath[path]? with
  | some ino => (t, ino)
  | none =>
    ({ byPath := t.byPath.insert path t.next, byIno := t.byIno.insert t.next path, next := t.next + 1 }, t.next)

def removeKey (t : InodeMaps) (key : String) : InodeMaps :=
  match t.byPath[key]? with
  | some ino => { t with byPath := t.byPath.erase key, byIno := t.byIno.erase ino }
  | none => { t with byPath := t.byPath.erase key }

def removeTree (t : InodeMaps) (path : String) : InodeMaps :=
  (subtreeKeys t.byPath path).foldl removeKey t

def moveKey (src dst : String) (t : InodeMaps) (key : String) : InodeMaps :=
  match t.byPath[key]? with
  | some ino =>
    let moved := rebase src dst key
    { t with byPath := (t.byPath.erase key).insert moved ino, byIno := t.byIno.insert ino moved }
  | none => { t with byPath := t.byPath.erase key }

def rename (t : InodeMaps) (src dst : String) : InodeMaps :=
  let t := t.removeTree dst
  (subtreeKeys t.byPath src).foldl (moveKey src dst) t

/-! ## The maps are each other's inverse -/

structure Valid (t : InodeMaps) : Prop where
  inverse : ∀ (p : String) (i : Nat), t.byPath[p]? = some i ↔ t.byIno[i]? = some p
  below : ∀ (p : String) (i : Nat), t.byPath[p]? = some i → i < t.next

variable {t t' : InodeMaps}

theorem Valid.inj (h : t.Valid) {p q : String} {i : Nat} (hp : t.byPath[p]? = some i) (hq : t.byPath[q]? = some i) : p = q :=
  Option.some.inj (((h.inverse p i).1 hp).symm.trans ((h.inverse q i).1 hq))

/-- A number that has been given out and has no path never gets one again. -/
def Retires (t t' : InodeMaps) : Prop :=
  t.next ≤ t'.next ∧ ∀ i < t.next, t.byIno[i]? = none → t'.byIno[i]? = none

theorem Retires.refl (t : InodeMaps) : Retires t t := ⟨Nat.le_refl _, fun _ _ h => h⟩

theorem Retires.trans {t u v : InodeMaps} (h : Retires t u) (h' : Retires u v) : Retires t v :=
  ⟨h.1.trans h'.1, fun i hi hn => h'.2 i (Nat.lt_of_lt_of_le hi h.1) (h.2 i hi hn)⟩

theorem new_valid : new.Valid := by
  refine ⟨fun p i => ?_, fun p i h => ?_⟩
  · simp only [new, get?_insert]
    grind
  · simp only [new, get?_insert] at h
    grind [new]

theorem ino_valid (h : t.Valid) (path : String) :
    (t.ino path).1.Valid ∧ Retires t (t.ino path).1 ∧ (t.ino path).1.byPath[path]? = some (t.ino path).2 := by
  unfold ino
  split
  · exact ⟨h, .refl t, ‹_›⟩
  · rename_i hnone
    have hfresh : t.byIno[t.next]? = none := by
      by_contra hne
      obtain ⟨q, hq⟩ := Option.ne_none_iff_exists'.1 hne
      exact absurd (h.below q _ ((h.inverse q _).2 hq)) (Nat.lt_irrefl _)
    refine ⟨⟨fun p i => ?_, fun p i hp => ?_⟩, ⟨Nat.le_succ _, fun i hi hn => ?_⟩, ?_⟩
    · simp only [get?_insert]
      have hinv := h.inverse p i
      grind
    · simp only [get?_insert] at hp
      have hb := h.below p i
      grind
    · simp only [get?_insert]
      rw [if_neg (Nat.ne_of_lt hi), hn]
    · simp

theorem removeKey_valid (h : t.Valid) (key : String) : (t.removeKey key).Valid ∧ Retires t (t.removeKey key) := by
  unfold removeKey
  split
  · rename_i i hi
    refine ⟨⟨fun p j => ?_, fun p j hp => ?_⟩, ⟨Nat.le_refl _, fun j hj hn => ?_⟩⟩
    · simp only [get?_erase]
      have hinv := h.inverse p j
      have hback := (h.inverse key i).1 hi
      grind
    · simp only [get?_erase] at hp
      exact h.below p j (by grind)
    · simp only [get?_erase]
      split <;> simp [hn]
  · rename_i hnone
    have hsame : ∀ p : String, (t.byPath.erase key)[p]? = t.byPath[p]? := by
      intro p
      rw [get?_erase]
      split
      · rw [‹p = key›, hnone]
      · rfl
    refine ⟨⟨fun p j => ?_, fun p j hp => ?_⟩, ⟨Nat.le_refl _, fun _ _ hn => hn⟩⟩
    · rw [hsame p]
      exact h.inverse p j
    · exact h.below p j (hsame p ▸ hp)

theorem removeTree_valid (h : t.Valid) (path : String) : (t.removeTree path).Valid ∧ Retires t (t.removeTree path) := by
  have hkeys : ∀ (keys : List String) (t : InodeMaps), t.Valid →
      (keys.foldl removeKey t).Valid ∧ Retires t (keys.foldl removeKey t) := by
    intro keys
    induction keys with
    | nil => exact fun t h => ⟨h, .refl t⟩
    | cons k keys ih =>
      intro t h
      obtain ⟨hv, hr⟩ := removeKey_valid h k
      obtain ⟨hv', hr'⟩ := ih _ hv
      exact ⟨hv', hr.trans hr'⟩
  exact hkeys _ t h

theorem moveKey_valid (h : t.Valid) {src dst key : String} (hfree : t.byPath[rebase src dst key]? = none) :
    (moveKey src dst t key).Valid ∧ Retires t (moveKey src dst t key) := by
  unfold moveKey
  split
  · rename_i i hi
    have hback := (h.inverse key i).1 hi
    refine ⟨⟨fun p j => ?_, fun p j hp => ?_⟩, ⟨Nat.le_refl _, fun j hj hn => ?_⟩⟩
    · simp only [get?_insert, get?_erase]
      have hinv := h.inverse p j
      grind
    · simp only [get?_insert, get?_erase] at hp
      have hb := h.below p j
      have hb' := h.below key i hi
      grind
    · simp only [get?_insert]
      grind
  · have hk := removeKey_valid h key
    unfold removeKey at hk
    simpa [*] using hk

theorem removeTree_byPath (t : InodeMaps) (path : String) : (t.removeTree path).byPath = removeSubtree t.byPath path := by
  refine (List.foldl_hom InodeMaps.byPath fun t k => ?_).symm
  unfold removeKey
  split <;> rfl

theorem moveKey_byPath (src dst : String) (t : InodeMaps) (key : String) :
    (moveKey src dst t key).byPath = Mobfs.moveKey src dst t.byPath key := by
  cases hk : t.byPath[key]? <;> simp only [moveKey, Mobfs.moveKey, hk]

theorem rename_byPath (t : InodeMaps) (src dst : String) : (t.rename src dst).byPath = moveSubtree t.byPath src dst := by
  rw [moveSubtree, ← removeTree_byPath]
  exact (List.foldl_hom InodeMaps.byPath fun t k => (moveKey_byPath src dst t k).symm).symm

/-- No key is moved onto another. -/
theorem foldl_moveKey_valid {src dst : String} {keys : List String} (h : t.Valid) (hd : keys.Nodup)
    (hsrc : ∀ k ∈ keys, matching src k = true) (hdst : ∀ k ∈ keys, matching dst k = false)
    (hfree : ∀ k ∈ keys, t.byPath[rebase src dst k]? = none) :
    (keys.foldl (moveKey src dst) t).Valid ∧ Retires t (keys.foldl (moveKey src dst) t) := by
  induction keys generalizing t with
  | nil => exact ⟨h, .refl t⟩
  | cons k keys ih =>
    obtain ⟨hk, hd⟩ := List.nodup_cons.1 hd
    obtain ⟨hv, hr⟩ := moveKey_valid h (hfree k List.mem_cons_self)
    have hrest : ∀ x ∈ keys, (moveKey src dst t k).byPath[rebase src dst x]? = none := by
      intro x hx
      have hxs := hsrc x (List.mem_cons_of_mem _ hx)
      have hne : rebase src dst x ≠ rebase src dst k := fun he =>
        hk (rebase_inj hxs (hsrc k List.mem_cons_self) he ▸ hx)
      rw [moveKey_byPath, getElem?_moveKey, if_neg fun h => hne h.1]
      split
      · rfl
      · exact hfree x (List.mem_cons_of_mem _ hx)
    obtain ⟨hv', hr'⟩ := ih hv hd (fun x hx => hsrc x (List.mem_cons_of_mem _ hx))
      (fun x hx => hdst x (List.mem_cons_of_mem _ hx)) hrest
    exact ⟨hv', hr.trans hr'⟩

theorem rename_valid (h : t.Valid) (src dst : String) : (t.rename src dst).Valid ∧ Retires t (t.rename src dst) := by
  obtain ⟨hv, hr⟩ := removeTree_valid h dst
  have hkeys : ∀ k ∈ subtreeKeys (t.removeTree dst).byPath src, matching src k = true := fun k hk =>
    (mem_subtreeKeys.1 hk).2
  have hgone : ∀ p, matching dst p = true → (t.removeTree dst).byPath[p]? = none := by
    intro p hp
    rw [removeTree_byPath, getElem?_removeSubtree, if_pos hp]
  have hout : ∀ k ∈ subtreeKeys (t.removeTree dst).byPath src, matching dst k = false := by
    intro k hk
    rw [Bool.eq_false_iff]
    intro hd
    have hmem := (mem_subtreeKeys.1 hk).1
    rw [ExtTreeMap.mem_iff_isSome_getElem?, hgone k hd] at hmem
    cases hmem
  obtain ⟨hv', hr'⟩ := foldl_moveKey_valid hv (nodup_subtreeKeys _ src) hkeys hout
    fun k hk => hgone _ (matching_rebase dst (hkeys k hk))
  exact ⟨hv', hr.trans hr'⟩

/-! ## Every sequence of calls -/

inductive Call where
  | ino (path : String)
  | removeTree (path : String)
  | rename (src dst : String)

def call (t : InodeMaps) : Call → InodeMaps
  | .ino path => (t.ino path).1
  | .removeTree path => t.removeTree path
  | .rename src dst => t.rename src dst

theorem call_valid (h : t.Valid) (c : Call) : (t.call c).Valid ∧ Retires t (t.call c) := by
  cases c with
  | ino path => exact ⟨(ino_valid h path).1, (ino_valid h path).2.1⟩
  | removeTree path => exact removeTree_valid h path
  | rename src dst => exact rename_valid h src dst

theorem calls_valid (h : t.Valid) (cs : List Call) : (cs.foldl call t).Valid ∧ Retires t (cs.foldl call t) := by
  induction cs generalizing t with
  | nil => exact ⟨h, .refl t⟩
  | cons c cs ih =>
    obtain ⟨hv, hr⟩ := call_valid h c
    obtain ⟨hv', hr'⟩ := ih hv
    exact ⟨hv', hr.trans hr'⟩

/-- The table by its map from inodes to paths. -/
def toInodes (t : InodeMaps) (h : t.Valid) : Inodes where
  path := fun i => t.byIno[i]?
  next := t.next
  fresh := by
    intro i hi
    by_contra hne
    obtain ⟨p, hp⟩ := Option.ne_none_iff_exists'.1 hne
    exact absurd (h.below p i ((h.inverse p i).2 hp)) (Nat.not_lt.2 hi)
  inj := by
    intro i j p hi hj
    exact Option.some.inj (((h.inverse p i).2 hi).symm.trans ((h.inverse p j).2 hj))

theorem toInodes_get (h : t.Valid) (p : String) : (t.toInodes h).get p = t.byPath[p]? := by
  cases hp : t.byPath[p]? with
  | none =>
    rw [Inodes.get, List.find?_eq_none]
    intro i _ hi
    have hi : t.byIno[i]? = some p := of_decide_eq_true hi
    rw [(h.inverse p i).2 hi] at hp
    cases hp
  | some i =>
    obtain ⟨j, hj⟩ : ∃ j, (t.toInodes h).get p = some j := by
      rw [← Option.isSome_iff_exists, Inodes.get, List.find?_isSome]
      exact ⟨i, List.mem_range.2 (h.below p i hp), decide_eq_true ((h.inverse p i).1 hp)⟩
    have hji : t.byIno[j]? = some p := of_decide_eq_true (List.find?_some (p := fun i => decide (t.byIno[i]? = some p)) hj)
    rw [hj, ← hp, (h.inverse p j).2 hji]

theorem toInodes_ino (h : t.Valid) (p : String) (i : Nat) :
    (t.ino p).1.byIno[i]? = ((t.toInodes h).ino p).path i := by
  have hino : ((t.toInodes h).ino p).path = match (t.toInodes h).get p with
      | some _ => (t.toInodes h).path
      | none => Function.update (t.toInodes h).path t.next (some p) := by
    unfold Inodes.ino
    split
    · rename_i j hj
      rw [hj]
    · rename_i hnone
      simp only [hnone]
      rfl
  rw [hino, toInodes_get h p]
  unfold ino
  cases hp : t.byPath[p]? with
  | some j => rfl
  | none =>
    simp only [get?_insert, Function.update_apply]
    rfl

theorem toInodes_removeTree (h : t.Valid) (p : String) (i : Nat) :
    (t.removeTree p).byIno[i]? = ((t.toInodes h).removeTree p).path i := by
  apply Option.ext
  intro q
  rw [Inodes.removeTree_path, ← (removeTree_valid h p).1.inverse, removeTree_byPath, getElem?_removeSubtree]
  have hinv := h.inverse q i
  have hpath : (t.toInodes h).path i = some q ↔ t.byPath[q]? = some i := hinv.symm
  rw [hpath]
  cases matching p q <;> simp

/-- A rename moves all paths under the old name at once, as it does one by one. -/
theorem toInodes_rename (h : t.Valid) (src dst : String) (i : Nat) :
    (t.rename src dst).byIno[i]? = ((t.toInodes h).rename src dst).path i := by
  apply Option.ext
  intro p
  rw [← (rename_valid h src dst).1.inverse, rename_byPath, getElem?_moveSubtree]
  have hkept : ∀ q, ((t.toInodes h).removeTree dst).path i = some q ↔ t.byPath[q]? = some i ∧ matching dst q = false := by
    intro q
    rw [Inodes.removeTree_path]
    exact and_congr_left fun _ => (h.inverse q i).symm
  have hpath : ((t.toInodes h).rename src dst).path i = some p ↔
      ∃ q, (t.byPath[q]? = some i ∧ matching dst q = false) ∧ (if matching src q then rebase src dst q else q) = p := by
    simp only [Inodes.rename, Option.map_eq_some_iff, hkept]
  rw [hpath]
  constructor
  · intro hp
    split at hp
    · rename_i hd
      split at hp
      · cases hp
      · rename_i hk
        exact ⟨rebase dst src p, ⟨hp, by simpa using hk⟩, by rw [if_pos (matching_rebase src hd), rebase_rebase src hd]⟩
    · rename_i hd
      split at hp
      · cases hp
      · rename_i hs
        exact ⟨p, ⟨hp, by simpa using hd⟩, if_neg hs⟩
  · rintro ⟨q, ⟨hq, hd⟩, rfl⟩
    by_cases hs : matching src q = true
    · rw [if_pos hs, if_pos (matching_rebase dst hs), rebase_rebase dst hs, if_neg (by simp [hd]), hq]
    · rw [if_neg hs, if_neg (by simp [hd]), if_neg hs, hq]

/-! ## Renames between separate names -/

/-- Where a rename takes what lies under its first name. -/
theorem byIno_rename_moved (h : t.Valid) {src dst p : String} {i : Nat} (hi : t.byIno[i]? = some p)
    (hs : matching src p = true) (hd : matching dst p = false) : (t.rename src dst).byIno[i]? = some (rebase src dst p) := by
  rw [← (rename_valid h src dst).1.inverse, rename_byPath, getElem?_moveSubtree, if_pos (matching_rebase dst hs),
    rebase_rebase dst hs, if_neg (by simp [hd]), (h.inverse p i).2 hi]

theorem byIno_rename_replaced (h : t.Valid) {src dst p : String} {i : Nat} (hi : t.byIno[i]? = some p)
    (hd : matching dst p = true) : (t.rename src dst).byIno[i]? = none := by
  have hpath : (t.toInodes h).path i = some p := hi
  rw [toInodes_rename h, Inodes.rename]
  simp only [Inodes.removeTree, hpath]
  simp [Option.filter, hd]

theorem byIno_rename_other (h : t.Valid) {src dst p : String} {i : Nat} (hi : t.byIno[i]? = some p)
    (hs : matching src p = false) (hd : matching dst p = false) : (t.rename src dst).byIno[i]? = some p := by
  rw [← (rename_valid h src dst).1.inverse, rename_byPath, getElem?_moveSubtree, if_neg (by simp [hd]), if_neg (by simp [hs]),
    (h.inverse p i).2 hi]

theorem rebase_below (src dst r : String) : rebase src dst (src ++ "/" ++ r) = dst ++ "/" ++ r := by
  rw [← String.toList_inj]
  simp [rebase]

theorem matching_below_self (d r : String) : matching d (d ++ "/" ++ r) = true := by
  rw [matching_iff_append]
  exact ⟨'/' :: r.toList, by simp, .inr ⟨r.toList, rfl⟩⟩

/-- A name that goes on without a slash is not below. -/
theorem not_matching_sibling {d x : String} (hx : x ≠ "") (hslash : x.toList.head? ≠ some '/') :
    matching d (d ++ x) = false := by
  rw [Bool.eq_false_iff]
  intro hm
  obtain ⟨r, hr, hshape⟩ := matching_iff_append.1 hm
  have hxr : x.toList = r := by simpa using hr
  rcases hshape with rfl | ⟨q, rfl⟩
  · exact hx (String.toList_inj.1 (by simpa using hxr))
  · exact hslash (by rw [hxr]; rfl)

/-- A rename between two names neither of which lies at or below the other. What had the
first name, or a name below it, has the second one, or the same name below that; what was
at or below the second name has no path any more; and everything else keeps its path, also
what is merely spelled like one of the names and more. The maps stay each other's inverse. -/
theorem rename_keeps_numbers (t : InodeMaps) (src dst : String) (h : t.Valid) (hsd : matching src dst = false)
    (hds : matching dst src = false) :
    let t' := t.rename src dst
    (∀ i : Nat, t.byIno[i]? = some src → t'.byIno[i]? = some dst) ∧
    (∀ (i : Nat) r, t.byIno[i]? = some (src ++ "/" ++ r) → t'.byIno[i]? = some (dst ++ "/" ++ r)) ∧
    (∀ i : Nat, t.byIno[i]? = some dst → t'.byIno[i]? = none) ∧
    (∀ (i : Nat) r, t.byIno[i]? = some (dst ++ "/" ++ r) → t'.byIno[i]? = none) ∧
    (∀ (i : Nat) p, t.byIno[i]? = some p → matching src p = false → matching dst p = false → t'.byIno[i]? = some p) ∧
    (∀ (i : Nat) x, x ≠ "" → x.toList.head? ≠ some '/' → t.byIno[i]? = some (src ++ x) → matching dst (src ++ x) = false →
      t'.byIno[i]? = some (src ++ x)) ∧
    (∀ (i : Nat) x, x ≠ "" → x.toList.head? ≠ some '/' → t.byIno[i]? = some (dst ++ x) → matching src (dst ++ x) = false →
      t'.byIno[i]? = some (dst ++ x)) ∧
    t'.Valid := by
  -- A path under both names would make one of them lie under the other.
  have hapart : ∀ p, matching src p = true → matching dst p = false := by
    intro p hs
    rw [Bool.eq_false_iff]
    intro hd
    rcases matching_total hs hd with h | h
    · rw [hsd] at h
      cases h
    · rw [hds] at h
      cases h
  refine ⟨fun i hi => ?_, fun i r hi => ?_, fun i hi => ?_, fun i r hi => ?_, fun i p hi hs hd => ?_,
    fun i x hx hslash hi hd => ?_, fun i x hx hslash hi hs => ?_, (rename_valid h src dst).1⟩
  · rw [byIno_rename_moved h hi (matching_self src) hds, rebase_self]
  · have hs := matching_below_self src r
    rw [byIno_rename_moved h hi hs (hapart _ hs), rebase_below]
  · exact byIno_rename_replaced h hi (matching_self dst)
  · exact byIno_rename_replaced h hi (matching_below_self dst r)
  · exact byIno_rename_other h hi hs hd
  · exact byIno_rename_other h hi (not_matching_sibling hx hslash) hd
  · exact byIno_rename_other h hi hs (not_matching_sibling hx hslash)

/-- A directory with a file, a sibling spelled alike, and what the rename replaces. -/
def renamedCalls : List Call := [.ino "a", .ino "a/f", .ino "a-x", .ino "b", .ino "b/g"]

theorem rename_keeps_numbers_sibling :
    let t := (renamedCalls.foldl call new).rename "a" "b"
    t.byIno[3]? = some "b/f" ∧ t.byIno[4]? = some "a-x" ∧ t.byIno[6]? = none := by
  have h := rename_keeps_numbers (renamedCalls.foldl call new) "a" "b" (calls_valid new_valid _).1 (by decide) (by decide)
  exact ⟨h.2.1 3 "f" (by decide), h.2.2.2.2.2.1 4 "-x" (by decide) (by decide) (by decide) (by decide),
    h.2.2.2.1 6 "g" (by decide)⟩

end InodeMaps

end Mobfs
