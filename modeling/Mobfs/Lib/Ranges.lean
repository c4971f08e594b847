import Mathlib.Data.List.Basic
/-!
# Ranges one after the other

A range of numbers is its first number and its length. `Consecutive a rs b` says
that the ranges `rs` lead from `a` to `b` without a gap: together they are the
numbers from `a` up to `b`, and no two of them overlap.
-/

namespace Lib

def Within (r : Nat × Nat) (i : Nat) : Prop := r.1 ≤ i ∧ i < r.1 + r.2

def Consecutive : Nat → List (Nat × Nat) → Nat → Prop
  | a, [], b => a = b
  | a, r :: rs, b => r.1 = a ∧ Consecutive (a + r.2) rs b

variable {a b : Nat} {rs : List (Nat × Nat)}

theorem Consecutive.le (h : Consecutive a rs b) : a ≤ b := by
  induction rs generalizing a with
  | nil => exact Nat.le_of_eq h
  | cons r rs ih =>
    have := ih h.2
    omega

theorem Consecutive.snoc (h : Consecutive a rs b) (n : Nat) : Consecutive a (rs ++ [(b, n)]) (b + n) := by
  induction rs generalizing a with
  | nil =>
    cases h
    exact ⟨rfl, rfl⟩
  | cons r rs ih => exact ⟨h.1, ih h.2⟩

/-- The numbers in consecutive ranges are those between their ends. -/
theorem Consecutive.within_iff (h : Consecutive a rs b) (i : Nat) : (∃ r ∈ rs, Within r i) ↔ a ≤ i ∧ i < b := by
  induction rs generalizing a with
  | nil =>
    cases h
    simp
  | cons r rs ih =>
    have hle := Consecutive.le h.2
    have hfirst := h.1
    rw [List.exists_mem_cons_iff, ih h.2, Within]
    omega

theorem Consecutive.disjoint (h : Consecutive a rs b) : rs.Pairwise fun r r' => r.1 + r.2 ≤ r'.1 := by
  -- All ranges begin at or after the first number.
  have hfrom : ∀ {a} {rs : List (Nat × Nat)}, Consecutive a rs b → ∀ r ∈ rs, a ≤ r.1 := by
    intro a rs h
    induction rs generalizing a with
    | nil => simp
    | cons r rs ih =>
      intro r' hr'
      rcases List.mem_cons.1 hr' with rfl | hr'
      · exact Nat.le_of_eq h.1.symm
      · have := ih h.2 r' hr'
        omega
  induction rs generalizing a with
  | nil => exact List.Pairwise.nil
  | cons r rs ih =>
    refine List.Pairwise.cons ?_ (ih h.2)
    intro r' hr'
    rw [h.1]
    exact hfrom h.2 r' hr'

end Lib
