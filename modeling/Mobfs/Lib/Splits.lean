import Mathlib.Data.List.Infix
/-!
# Splitting once

`splitOnce sep l` is what is before and after the first occurrence of `sep` in `l`, and
`rsplitOnce` what is before and after the last one: `split_once` and `rsplit_once` of strings.
-/

namespace Lib

variable {α : Type} [DecidableEq α]

def splitOnce (sep : List α) : List α → Option (List α × List α)
  | [] => if sep = [] then some ([], []) else none
  | x :: xs =>
    if sep.isPrefixOf (x :: xs) then some ([], (x :: xs).drop sep.length)
    else (splitOnce sep xs).map fun r => (x :: r.1, r.2)

def rsplitOnce (sep l : List α) : Option (List α × List α) :=
  (splitOnce sep.reverse l.reverse).map fun r => (r.2.reverse, r.1.reverse)

variable {sep l a b : List α} {x : α}

theorem splitOnce_eq_append (h : splitOnce sep l = some (a, b)) : l = a ++ sep ++ b := by
  induction l generalizing a with
  | nil =>
    rw [splitOnce, Option.ite_none_right_eq_some] at h
    obtain ⟨rfl, h⟩ := h
    cases h
    rfl
  | cons x xs ih =>
    rw [splitOnce] at h
    split at h
    · rename_i hpre
      cases h
      obtain ⟨r, hr⟩ := List.isPrefixOf_iff_prefix.1 hpre
      rw [← hr, List.drop_left]
      rfl
    · obtain ⟨⟨c, d⟩, hcd, h⟩ := Option.map_eq_some_iff.1 h
      cases h
      rw [ih hcd]
      rfl

theorem splitOnce_eq_none : splitOnce sep l = none ↔ ¬ sep <:+: l := by
  induction l with
  | nil => simp [splitOnce]
  | cons x xs ih =>
    rw [splitOnce, List.infix_cons_iff, not_or, ← List.isPrefixOf_iff_prefix]
    split
    · simp [*]
    · rename_i hpre
      rw [Option.map_eq_none_iff, ih]
      exact ⟨fun h => ⟨hpre, h⟩, fun h => h.2⟩

/-- What is before the first occurrence has none. -/
theorem splitOnce_not_mem (h : splitOnce [x] l = some (a, b)) : x ∉ a := by
  induction l generalizing a with
  | nil => simp [splitOnce] at h
  | cons y ys ih =>
    rw [splitOnce] at h
    split at h
    · cases h
      exact List.not_mem_nil
    · rename_i hpre
      obtain ⟨⟨c, d⟩, hcd, h⟩ := Option.map_eq_some_iff.1 h
      cases h
      rw [List.mem_cons, not_or]
      refine ⟨?_, ih hcd⟩
      rintro rfl
      simp at hpre

theorem splitOnce_append (h : x ∉ a) (b : List α) : splitOnce [x] (a ++ x :: b) = some (a, b) := by
  induction a with
  | nil => simp [splitOnce]
  | cons y ys ih =>
    rw [List.mem_cons, not_or] at h
    have hpre : ¬ [x].isPrefixOf (y :: (ys ++ x :: b)) = true := by
      rw [List.isPrefixOf_iff_prefix, List.cons_prefix_cons]
      exact fun hxy => h.1 hxy.1
    rw [List.cons_append, splitOnce, if_neg hpre, ih h.2]
    rfl

theorem rsplitOnce_eq_append (h : rsplitOnce sep l = some (a, b)) : l = a ++ sep ++ b := by
  obtain ⟨⟨c, d⟩, hcd, h⟩ := Option.map_eq_some_iff.1 h
  cases h
  have hrev := congrArg List.reverse (splitOnce_eq_append hcd)
  simpa using hrev

end Lib
