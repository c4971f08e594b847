import Mathlib.Algebra.GroupWithZero.Nat
import Mathlib.Data.List.Basic
/-!
# Least recently used first

A cache as the list of its entries in the order of their last use, with a bound on
their total size. A use moves an entry to the end; what is entered goes to the end,
and entries leave from the front while the rest is too large.

`trim_spec` says which leave: what stays is an end of the list, it fits, and with the
last entry that has left it would not.
-/

namespace Lib

variable {κ α : Type} (size : α → Nat)

def total (l : List (κ × α)) : Nat := (l.map fun x => size x.2).sum

/-- Entries leave from the front while what is there is larger than `bound`. -/
def trim (bound : Nat) : List (κ × α) → List (κ × α)
  | [] => []
  | x :: l => if bound < total size (x :: l) then trim bound l else x :: l

section Keys
variable [DecidableEq κ]

def dropKey (k : κ) (l : List (κ × α)) : List (κ × α) := l.filter fun x => x.1 ≠ k

/-- A use of the entry. -/
def touch (k : κ) (l : List (κ × α)) : List (κ × α) :=
  match l.find? fun x => x.1 = k with
  | none => l
  | some x => dropKey k l ++ [x]

/-- A new entry, in place of one with the same key. -/
def enter (bound : Nat) (k : κ) (v : α) (l : List (κ × α)) : List (κ × α) :=
  trim size bound (dropKey k l ++ [(k, v)])

end Keys

@[simp] theorem total_nil : total size ([] : List (κ × α)) = 0 := rfl

@[simp] theorem total_cons (x : κ × α) (l : List (κ × α)) : total size (x :: l) = size x.2 + total size l := by
  simp [total]

@[simp] theorem total_append (l l' : List (κ × α)) : total size (l ++ l') = total size l + total size l' := by
  simp [total]

theorem total_perm {l l' : List (κ × α)} (h : l.Perm l') : total size l = total size l' :=
  (h.map _).sum_nat

theorem size_le_total {x : κ × α} {l : List (κ × α)} (h : x ∈ l) : size x.2 ≤ total size l := by
  induction l with
  | nil => cases h
  | cons y l ih =>
    rw [total_cons]
    rcases List.mem_cons.1 h with rfl | h
    · exact Nat.le_add_right _ _
    · exact Nat.le_trans (ih h) (Nat.le_add_left _ _)

theorem total_trim_le (bound : Nat) (l : List (κ × α)) : total size (trim size bound l) ≤ bound := by
  induction l with
  | nil => exact Nat.zero_le _
  | cons x l ih =>
    unfold trim
    split
    · exact ih
    · exact Nat.le_of_not_lt ‹_›

theorem trim_eq_self {bound : Nat} {l : List (κ × α)} (h : total size l ≤ bound) : trim size bound l = l := by
  cases l with
  | nil => rfl
  | cons x l => exact if_neg (Nat.not_lt.2 h)

/-- What leaves and what stays. -/
theorem trim_spec (bound : Nat) (l : List (κ × α)) :
    ∃ gone, l = gone ++ trim size bound l ∧
      ∀ x, gone.getLast? = some x → bound < size x.2 + total size (trim size bound l) := by
  induction l with
  | nil => exact ⟨[], rfl, by simp⟩
  | cons x l ih =>
    unfold trim
    split
    · rename_i hlarge
      obtain ⟨gone, hl, hlast⟩ := ih
      refine ⟨x :: gone, by rw [List.cons_append, ← hl], ?_⟩
      intro y hy
      cases gone with
      | nil =>
        -- The first entry is the only one that leaves.
        obtain rfl : x = y := by simpa using hy
        rw [List.nil_append] at hl
        rw [← hl, ← total_cons]
        exact hlarge
      | cons z gone =>
        rw [List.getLast?_cons_cons] at hy
        exact hlast y hy
    · exact ⟨[], rfl, by simp⟩

/-- An entry at the end that fits stays. -/
theorem mem_trim_last {bound : Nat} {x : κ × α} (l : List (κ × α)) (h : size x.2 ≤ bound) :
    x ∈ trim size bound (l ++ [x]) := by
  induction l with
  | nil =>
    rw [List.nil_append, trim_eq_self size (by simpa using h)]
    exact List.mem_singleton.2 rfl
  | cons y l ih =>
    rw [List.cons_append]
    unfold trim
    split
    · exact ih
    · exact List.mem_cons_of_mem _ (List.mem_append_right _ (List.mem_singleton.2 rfl))

theorem total_filter_le (p : κ × α → Bool) (l : List (κ × α)) : total size (l.filter p) ≤ total size l := by
  induction l with
  | nil => exact Nat.le_refl _
  | cons x l ih =>
    rw [List.filter_cons, total_cons]
    split
    · rw [total_cons]
      exact Nat.add_le_add_left ih _
    · exact Nat.le_trans ih (Nat.le_add_left _ _)

/-- The same entries under other keys. -/
theorem trim_map {κ' α' : Type} (size' : α' → Nat) {f : κ × α → κ' × α'} (hf : ∀ x, size' (f x).2 = size x.2) (bound : Nat)
    (l : List (κ × α)) : trim size' bound (l.map f) = (trim size bound l).map f := by
  have htotal : ∀ l : List (κ × α), total size' (l.map f) = total size l := fun l => by
    simp [total, Function.comp_def, hf]
  induction l with
  | nil => rfl
  | cons x l ih =>
    rw [List.map_cons, trim, trim, ← List.map_cons, htotal, ih]
    split <;> rfl

end Lib
