import Mathlib.Data.List.Pairwise
import Mathlib.Data.List.Sort
/-!
# Reading a changing set page by page

Each page lists the items anew, sorts them by a key, and returns some that come after
the last key of the page before. Where the keys of every listing are distinct, no key is
returned twice, and a key that every listing has is returned by the time a page says it
is the last.
-/

namespace Lib

variable {α : Type} (key : α → Nat)

structure Page (α : Type) where
  listed : List α
  after : Nat
  entries : List α
  eof : Bool
  deriving DecidableEq

/-- `sort_by_key`. -/
def sortByKey (items : List α) : List α := items.insertionSort fun a b => key a ≤ key b

/-- The page after a key, of at most `max` items. -/
def Page.make (listed : List α) (after max : Nat) : Page α :=
  let remaining := (sortByKey key listed).filter fun a => after < key a
  ⟨listed, after, remaining.take max, (remaining.drop max).isEmpty⟩

/-- The last key of a page; where it is empty, the key it comes after. -/
def Page.last (p : Page α) : Nat := (p.entries.getLast?.map key).getD p.after

/-- Where the next page starts. -/
def cursor (pages : List (Page α)) : Nat := (pages.getLast?.map (Page.last key)).getD 0

def returned (pages : List (Page α)) : List Nat := pages.flatMap fun p => p.entries.map key

def ended (pages : List (Page α)) : Bool := pages.getLast?.any (·.eof)

variable {key} {listed : List α} {after max k : Nat}

theorem remaining_increasing (hd : (listed.map key).Nodup) :
    (((sortByKey key listed).filter fun a => after < key a).map key).Pairwise (· < ·) := by
  have hsorted : ((sortByKey key listed).map key).Pairwise (· ≤ ·) :=
    List.pairwise_map.2 (List.pairwise_insertionSort (fun a b => key a ≤ key b) listed)
  have hnodup : ((sortByKey key listed).map key).Nodup :=
    (((List.perm_insertionSort (fun a b => key a ≤ key b) listed).map key).nodup_iff).2 hd
  have hlt : ((sortByKey key listed).map key).Pairwise (· < ·) :=
    hsorted.imp₂ (fun a b hle hne => Nat.lt_of_le_of_ne hle hne) hnodup
  exact hlt.sublist (List.filter_sublist.map key)

theorem mem_remaining :
    k ∈ ((sortByKey key listed).filter fun a => after < key a).map key ↔ k ∈ listed.map key ∧ after < k := by
  have hmem : ∀ a, a ∈ sortByKey key listed ↔ a ∈ listed := fun a => List.mem_insertionSort _
  simp only [List.mem_map, List.mem_filter, hmem, decide_eq_true_eq]
  constructor
  · rintro ⟨a, ⟨ha, hlt⟩, rfl⟩
    exact ⟨⟨a, ha, rfl⟩, hlt⟩
  · rintro ⟨⟨a, ha, rfl⟩, hlt⟩
    exact ⟨a, ⟨ha, hlt⟩, rfl⟩

/-- In an increasing list, what comes up to the last of the first `max` is among them. -/
theorem take_of_le_last {xs : List Nat} (hs : xs.Pairwise (· < ·)) (hk : k ∈ xs)
    (hle : k ≤ ((xs.take max).getLast?).getD after) (hafter : ∀ x ∈ xs, after < x) : k ∈ xs.take max := by
  rw [← List.take_append_drop max xs] at hk
  rcases List.mem_append.1 hk with hk | hk
  · exact hk
  · have hlt : ∀ x ∈ xs.take max, x < k := by
      rw [← List.take_append_drop max xs, List.pairwise_append] at hs
      exact fun x hx => hs.2.2 x hx k hk
    cases hl : (xs.take max).getLast? with
    | none =>
      rw [hl] at hle
      exact absurd (hafter k (List.mem_of_mem_drop hk)) (Nat.not_lt.2 hle)
    | some x =>
      rw [hl] at hle
      exact absurd (hlt x (List.mem_of_getLast? hl)) (Nat.not_lt.2 hle)

theorem le_last {xs : List Nat} (hs : xs.Pairwise (· < ·)) (hk : k ∈ xs) : k ≤ (xs.getLast?).getD after := by
  have hle : xs.Pairwise (· ≤ ·) := hs.imp Nat.le_of_lt
  rw [List.getLast?_eq_some_getLast (List.ne_nil_of_mem hk)]
  exact hle.rel_getLast hk

/-- The keys that are left, of which a page returns the first. -/
def remainingKeys (key : α → Nat) (listed : List α) (after : Nat) : List Nat :=
  ((sortByKey key listed).filter fun a => after < key a).map key

theorem entries_make : (Page.make key listed after max).entries.map key = (remainingKeys key listed after).take max := by
  simp [Page.make, remainingKeys, List.map_take]

theorem eof_make : (Page.make key listed after max).eof = ((remainingKeys key listed after).drop max).isEmpty := by
  simp [Page.make, remainingKeys, ← List.map_drop]

theorem last_make : (Page.make key listed after max).last key =
    (((remainingKeys key listed after).take max).getLast?).getD after := by
  rw [Page.last, ← entries_make, List.getLast?_map]
  rfl

/-- What pages read one after the other have returned so far. -/
structure Paged (key : α → Nat) (pages : List (Page α)) : Prop where
  increasing : (returned key pages).Pairwise (· < ·)
  upto : ∀ k ∈ returned key pages, k ≤ cursor key pages
  complete : ∀ k, 0 < k → (∀ p ∈ pages, k ∈ p.listed.map key) →
    k ∈ returned key pages ∨ (cursor key pages < k ∧ ended pages = false)
  eof : ∀ p ∈ pages, p.eof = true ↔ ∀ k ∈ p.listed.map key, k ≤ p.last key

theorem Paged.nil : Paged key [] :=
  ⟨List.Pairwise.nil, by simp [returned], fun _ hk _ => .inr ⟨hk, rfl⟩, by simp⟩

/-- A page of items with distinct keys that starts where the last one ended. -/
theorem Paged.next {pages : List (Page α)} (h : Paged key pages) (hd : (listed.map key).Nodup) :
    Paged key (pages ++ [Page.make key listed (cursor key pages) max]) := by
  have hinc : (remainingKeys key listed (cursor key pages)).Pairwise (· < ·) := remaining_increasing hd
  have hmem : ∀ k, k ∈ remainingKeys key listed (cursor key pages) ↔ k ∈ listed.map key ∧ cursor key pages < k :=
    fun k => mem_remaining
  have hret : returned key (pages ++ [Page.make key listed (cursor key pages) max]) =
      returned key pages ++ (remainingKeys key listed (cursor key pages)).take max := by
    simp [returned, ← entries_make]
  have hcur : cursor key (pages ++ [Page.make key listed (cursor key pages) max]) =
      (((remainingKeys key listed (cursor key pages)).take max).getLast?).getD (cursor key pages) := by
    simp [cursor, ← last_make]
  have hend : ended (pages ++ [Page.make key listed (cursor key pages) max]) =
      ((remainingKeys key listed (cursor key pages)).drop max).isEmpty := by
    simp [ended, ← eof_make]
  generalize hxs : remainingKeys key listed (cursor key pages) = xs at *
  have hnew : ∀ k ∈ xs.take max, cursor key pages < k := fun k hk => ((hmem k).1 (List.mem_of_mem_take hk)).2
  have htake : (xs.take max).Pairwise (· < ·) := hinc.sublist (List.take_sublist _ _)
  have hgrows : cursor key pages ≤ ((xs.take max).getLast?).getD (cursor key pages) := by
    cases hl : (xs.take max).getLast? with
    | none => exact Nat.le_refl _
    | some x => exact Nat.le_of_lt (hnew x (List.mem_of_getLast? hl))
  have hlast : ∀ k ∈ xs, k ≤ ((xs.take max).getLast?).getD (cursor key pages) → k ∈ xs.take max :=
    fun k hk hle => take_of_le_last hinc hk hle fun x hx => ((hmem x).1 hx).2
  have hdrop : (xs.drop max).isEmpty = true ↔ ∀ k ∈ xs, k ∈ xs.take max := by
    rw [List.isEmpty_iff]
    constructor
    · intro he k hk
      rwa [← List.take_append_drop max xs, he, List.append_nil] at hk
    · intro hall
      refine List.eq_nil_iff_forall_not_mem.2 fun k hk => ?_
      have hlt := hinc
      rw [← List.take_append_drop max xs, List.pairwise_append] at hlt
      exact Nat.lt_irrefl k (hlt.2.2 k (hall k (List.mem_of_mem_drop hk)) k hk)
  refine ⟨?_, ?_, ?_, ?_⟩
  · rw [hret, List.pairwise_append]
    exact ⟨h.increasing, htake, fun a ha b hb => Nat.lt_of_le_of_lt (h.upto a ha) (hnew b hb)⟩
  · rw [hret, hcur]
    intro k hk
    rcases List.mem_append.1 hk with hk | hk
    · exact (h.upto k hk).trans hgrows
    · exact le_last htake hk
  · intro k hk hall
    rw [hret, hcur, hend, List.mem_append]
    have hlisted : k ∈ listed.map key := hall _ (List.mem_append_right _ List.mem_cons_self)
    rcases h.complete k hk fun p hp => hall p (List.mem_append_left _ hp) with hr | ⟨hlt, -⟩
    · exact .inl (.inl hr)
    · have hx : k ∈ xs := (hmem k).2 ⟨hlisted, hlt⟩
      by_cases ht : k ∈ xs.take max
      · exact .inl (.inr ht)
      · refine .inr ⟨Nat.lt_of_not_le fun hle => ht (hlast k hx hle), ?_⟩
        rw [Bool.eq_false_iff]
        exact fun he => ht (hdrop.1 he k hx)
  · intro p hp
    rcases List.mem_append.1 hp with hp | hp
    · exact h.eof p hp
    · rw [List.mem_singleton.1 hp, eof_make, last_make, hxs, hdrop]
      constructor
      · intro hall k hk
        by_cases hlt : cursor key pages < k
        · exact le_last htake (hall k ((hmem k).2 ⟨hk, hlt⟩))
        · exact (Nat.le_of_not_lt hlt).trans hgrows
      · exact fun hall k hk => hlast k hk (hall k ((hmem k).1 hk).1)

end Lib
