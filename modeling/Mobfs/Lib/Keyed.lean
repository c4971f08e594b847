import Mathlib.Data.List.Basic
/-!
# Lists with keys

A list whose items have different keys is a table: `find?` by a key splits it at the
one item that has the key, and what is done to that item alone is done there.
-/

namespace Lib

variable {α κ : Type} [DecidableEq κ]

/-- The item with the key, and the others before and after it. -/
theorem split_of_find {key : α → κ} {k : κ} {x : α} {l : List α} (hl : l.Pairwise (key · ≠ key ·))
    (hx : l.find? (key · = k) = some x) :
    key x = k ∧ ∃ l₁ l₂, l = l₁ ++ x :: l₂ ∧ (∀ y ∈ l₁, key y ≠ k) ∧ ∀ y ∈ l₂, key y ≠ k := by
  obtain ⟨hk, l₁, l₂, rfl, hbefore⟩ := List.find?_eq_some_iff_append.1 hx
  have hk : key x = k := by simpa using hk
  refine ⟨hk, l₁, l₂, rfl, fun y hy => by simpa using hbefore y hy, ?_⟩
  intro y hy
  have hafter := (List.pairwise_cons.1 (List.pairwise_append.1 hl).2.1).1 y hy
  rw [← hk]
  exact hafter.symm

theorem filter_ne_split {key : α → κ} {k : κ} {x : α} {l₁ l₂ : List α} (hk : key x = k)
    (h₁ : ∀ y ∈ l₁, key y ≠ k) (h₂ : ∀ y ∈ l₂, key y ≠ k) :
    (l₁ ++ x :: l₂).filter (key · ≠ k) = l₁ ++ l₂ := by
  have he : ∀ {l : List α}, (∀ y ∈ l, key y ≠ k) → l.filter (key · ≠ k) = l := fun h =>
    List.filter_eq_self.2 fun y hy => by simpa using h y hy
  rw [List.filter_append, List.filter_cons_of_neg (by simp [hk]), he h₁, he h₂]

theorem map_update_split {key : α → κ} {k : κ} {x : α} {l₁ l₂ : List α} (f : α → α) (hk : key x = k)
    (h₁ : ∀ y ∈ l₁, key y ≠ k) (h₂ : ∀ y ∈ l₂, key y ≠ k) :
    ((l₁ ++ x :: l₂).map fun y => if key y = k then f y else y) = l₁ ++ f x :: l₂ := by
  have he : ∀ {l : List α}, (∀ y ∈ l, key y ≠ k) → (l.map fun y => if key y = k then f y else y) = l := by
    intro l h
    exact (List.map_congr_left fun y hy => if_neg (h y hy)).trans (List.map_id l)
  rw [List.map_append, List.map_cons, if_pos hk, he h₁, he h₂]

/-! ## Ranges of an ordered list -/

section Range
variable {R : α → α → Prop} {p : α → Bool} {l : List α}

/-- What satisfies `p` is at the front. -/
theorem takeWhile_eq_filter (hl : l.Pairwise R) (hp : ∀ a ∈ l, ∀ b ∈ l, R a b → p b = true → p a = true) :
    l.takeWhile p = l.filter p := by
  induction l with
  | nil => rfl
  | cons a l ih =>
    obtain ⟨ha, hl⟩ := List.pairwise_cons.1 hl
    by_cases hpa : p a = true
    · rw [List.takeWhile_cons_of_pos hpa, List.filter_cons_of_pos hpa,
        ih hl fun b hb c hc => hp b (List.mem_cons_of_mem _ hb) c (List.mem_cons_of_mem _ hc)]
    · have hnone : l.filter p = [] := by
        rw [List.filter_eq_nil_iff]
        intro b hb hpb
        exact hpa (hp a List.mem_cons_self b (List.mem_cons_of_mem _ hb) (ha b hb) hpb)
      rw [List.takeWhile_cons_of_neg hpa, List.filter_cons_of_neg hpa, hnone]

theorem dropWhile_eq_filter (hl : l.Pairwise R) (hp : ∀ a ∈ l, ∀ b ∈ l, R a b → p b = true → p a = true) :
    l.dropWhile p = l.filter fun a => !p a := by
  induction l with
  | nil => rfl
  | cons a l ih =>
    obtain ⟨ha, hl⟩ := List.pairwise_cons.1 hl
    by_cases hpa : p a = true
    · rw [List.dropWhile_cons_of_pos hpa, List.filter_cons_of_neg (by simp [hpa]),
        ih hl fun b hb c hc => hp b (List.mem_cons_of_mem _ hb) c (List.mem_cons_of_mem _ hc)]
    · have hall : l.filter (fun a => !p a) = l := by
        rw [List.filter_eq_self]
        intro b hb
        simp only [Bool.not_eq_true', Bool.eq_false_iff]
        exact fun hpb => hpa (hp a List.mem_cons_self b (List.mem_cons_of_mem _ hb) (ha b hb) hpb)
      rw [List.dropWhile_cons_of_neg hpa, List.filter_cons_of_pos (by simp [hpa]), hall]

end Range

end Lib
