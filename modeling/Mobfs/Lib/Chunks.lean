import Mathlib.Data.List.Basic
/-!
# Cutting a list into pieces

`chunks n l` cuts `l` into consecutive pieces of `n` elements, the last one
shorter where `n` does not divide the length: what a slice's `chunks(n)`
iterates over.
-/

namespace Lib

variable {α : Type}

/-- `chunks`, for at most `fuel` pieces. -/
def chunksUpTo (n : Nat) : Nat → List α → List (List α)
  | 0, _ => []
  | _ + 1, [] => []
  | fuel + 1, x :: xs => (x :: xs).take n :: chunksUpTo n fuel ((x :: xs).drop n)

/-- The consecutive pieces of `l`, each of `n` elements but the last. -/
def chunks (n : Nat) (l : List α) : List (List α) := chunksUpTo n l.length l

theorem chunksUpTo_flatten (n : Nat) (hn : 0 < n) :
    ∀ (fuel : Nat) (l : List α), l.length ≤ fuel → (chunksUpTo n fuel l).flatten = l
  | 0, l, h => by simp [chunksUpTo, List.length_eq_zero_iff.1 (Nat.le_zero.1 h)]
  | _ + 1, [], _ => by simp [chunksUpTo]
  | fuel + 1, x :: xs, h => by
    have hlen : ((x :: xs).drop n).length ≤ fuel := by
      simp only [List.length_drop, List.length_cons] at h ⊢
      omega
    rw [chunksUpTo, List.flatten_cons, chunksUpTo_flatten n hn fuel _ hlen, List.take_append_drop]

theorem chunksUpTo_ne_nil (n : Nat) (hn : 0 < n) :
    ∀ (fuel : Nat) (l : List α), ∀ c ∈ chunksUpTo n fuel l, c ≠ []
  | 0, _, c, h => by simp [chunksUpTo] at h
  | _ + 1, [], c, h => by simp [chunksUpTo] at h
  | fuel + 1, x :: xs, c, h => by
    simp only [chunksUpTo, List.mem_cons] at h
    rcases h with rfl | h
    · obtain ⟨m, rfl⟩ : ∃ m, n = m + 1 := ⟨n - 1, by omega⟩
      simp
    · exact chunksUpTo_ne_nil n hn fuel _ c h

/-- The pieces put together are the list. -/
theorem chunks_flatten {n : Nat} (hn : 0 < n) (l : List α) : (chunks n l).flatten = l :=
  chunksUpTo_flatten n hn _ l (Nat.le_refl _)

/-- No piece is empty. -/
theorem chunks_ne_nil {n : Nat} (hn : 0 < n) (l : List α) : ∀ c ∈ chunks n l, c ≠ [] :=
  chunksUpTo_ne_nil n hn _ l

@[simp] theorem chunks_nil (n : Nat) : chunks n ([] : List α) = [] := rfl

theorem chunks_eq_nil_iff {n : Nat} (hn : 0 < n) (l : List α) : chunks n l = [] ↔ l = [] := by
  constructor
  · intro h
    rw [← chunks_flatten hn l, h, List.flatten_nil]
  · rintro rfl
    rfl

theorem length_of_mem_dropLast_chunksUpTo (n : Nat) :
    ∀ (fuel : Nat) (l : List α), ∀ c ∈ (chunksUpTo n fuel l).dropLast, c.length = n
  | 0, _, c, h => by simp [chunksUpTo] at h
  | _ + 1, [], c, h => by simp [chunksUpTo] at h
  | fuel + 1, x :: xs, c, h => by
    rw [chunksUpTo] at h
    cases hrest : chunksUpTo n fuel ((x :: xs).drop n) with
    | nil => simp [hrest] at h
    | cons d ds =>
      rw [hrest, List.dropLast_cons_cons, List.mem_cons, ← hrest] at h
      rcases h with rfl | h
      · -- There is a piece after this one, so it is full.
        have hmore : (x :: xs).drop n ≠ [] := by
          intro hnil
          rw [hnil] at hrest
          cases fuel <;> simp [chunksUpTo] at hrest
        rw [ne_eq, List.drop_eq_nil_iff] at hmore
        rw [List.length_take]
        omega
      · exact length_of_mem_dropLast_chunksUpTo n fuel _ c h

/-- All pieces but the last are full. -/
theorem length_of_mem_dropLast_chunks (n : Nat) (l : List α) : ∀ c ∈ (chunks n l).dropLast, c.length = n :=
  length_of_mem_dropLast_chunksUpTo n _ l

theorem getElem?_chunksUpTo {n : Nat} (hn : 0 < n) :
    ∀ (fuel : Nat) (l : List α) (i : Nat), l.length ≤ fuel →
      (chunksUpTo n fuel l)[i]? = if i * n < l.length then some ((l.drop (i * n)).take n) else none
  | 0, l, i, h => by
    rw [if_neg (by omega)]
    rfl
  | _ + 1, [], i, _ => by simp [chunksUpTo]
  | fuel + 1, x :: xs, i, h => by
    have hlen : ((x :: xs).drop n).length ≤ fuel := by
      simp only [List.length_drop, List.length_cons] at h ⊢
      omega
    rw [chunksUpTo]
    cases i with
    | zero => simp
    | succ i =>
      rw [List.getElem?_cons_succ, getElem?_chunksUpTo hn fuel _ i hlen, List.drop_drop, List.length_drop, Nat.succ_mul,
        Nat.add_comm (i * n) n]
      congr 1
      exact propext Nat.lt_sub_iff_add_lt'

/-- The pieces by their place. -/
theorem getElem?_chunks {n : Nat} (hn : 0 < n) (l : List α) (i : Nat) :
    (chunks n l)[i]? = if i * n < l.length then some ((l.drop (i * n)).take n) else none :=
  getElem?_chunksUpTo hn _ l i (Nat.le_refl _)

theorem length_le_of_mem_chunks {n : Nat} (hn : 0 < n) {l c : List α} (h : c ∈ chunks n l) : c.length ≤ n := by
  obtain ⟨i, hi⟩ := List.mem_iff_getElem?.1 h
  rw [getElem?_chunks hn] at hi
  split at hi
  · rw [← Option.some.inj hi]
    exact List.length_take_le _ _
  · cases hi

theorem chunks_append {n : Nat} (hn : 0 < n) {l : List α} (hl : l.length = n) (r : List α) :
    chunks n (l ++ r) = l :: chunks n r := by
  apply List.ext_getElem?
  intro i
  rw [getElem?_chunks hn, List.length_append, hl]
  cases i with
  | zero =>
    rw [if_pos (by omega), Nat.zero_mul, List.drop_zero, List.take_left' hl, List.getElem?_cons_zero]
  | succ i =>
    have hdrop : (l ++ r).drop ((i + 1) * n) = r.drop (i * n) := by
      rw [Nat.succ_mul, Nat.add_comm, ← List.drop_drop, List.drop_left' hl]
    rw [hdrop, List.getElem?_cons_succ, getElem?_chunks hn, Nat.succ_mul, Nat.add_comm n]
    simp only [Nat.add_lt_add_iff_right]

theorem chunks_of_le {n : Nat} {l : List α} (hne : l ≠ []) (hl : l.length ≤ n) : chunks n l = [l] := by
  have hpos : 0 < l.length := List.length_pos_iff.2 hne
  apply List.ext_getElem?
  intro i
  rw [getElem?_chunks (by omega)]
  cases i with
  | zero => rw [if_pos (by omega), Nat.zero_mul, List.drop_zero, List.take_of_length_le hl, List.getElem?_cons_zero]
  | succ i =>
    rw [if_neg (by rw [Nat.succ_mul]; omega)]
    rfl

/-- Pieces of the right sizes are the pieces of what they are put together. -/
theorem chunks_eq_of_flatten {n : Nat} (hn : 0 < n) {ls : List (List α)} (hne : ∀ c ∈ ls, c ≠ [])
    (hfull : ∀ c ∈ ls.dropLast, c.length = n) (hlast : ∀ c ∈ ls.getLast?, c.length ≤ n) : chunks n ls.flatten = ls := by
  induction ls with
  | nil => rfl
  | cons c ls ih =>
    cases ls with
    | nil =>
      rw [List.flatten_singleton]
      exact chunks_of_le (hne c List.mem_cons_self) (hlast c rfl)
    | cons d ls =>
      rw [List.dropLast_cons_cons] at hfull
      rw [List.getLast?_cons_cons] at hlast
      rw [List.flatten_cons, chunks_append hn (hfull c List.mem_cons_self),
        ih (fun b hb => hne b (List.mem_cons_of_mem _ hb)) (fun b hb => hfull b (List.mem_cons_of_mem _ hb)) hlast]

end Lib
