import Mathlib.Data.List.Basic
/-!
# Numbered logs

A log whose entries carry their position, counted from one. Reading it from a
cursor on is dropping that many entries, and a bounded store of it is its end:
both are statements about numbers, which is how a client states them.
-/

namespace Lib

variable {α : Type} {seq : α → Nat} {log : List α} {x : α}

/-- The entries are numbered 1, 2, … in order. -/
def Numbered (seq : α → Nat) (log : List α) : Prop := ∀ i x, log[i]? = some x → seq x = i + 1

theorem Numbered.nil : Numbered seq [] := by
  intro i x hx
  simp at hx

theorem Numbered.concat (h : Numbered seq log) (hx : seq x = log.length + 1) : Numbered seq (log ++ [x]) := by
  intro i y hy
  rw [List.getElem?_append] at hy
  split at hy
  · exact h i y hy
  · rw [List.getElem?_singleton] at hy
    split at hy
    · cases hy
      omega
    · cases hy

theorem Numbered.seq_le (h : Numbered seq log) (hx : x ∈ log) : 0 < seq x ∧ seq x ≤ log.length := by
  obtain ⟨i, hi⟩ := List.mem_iff_getElem?.1 hx
  have hlen : i < log.length := (List.getElem?_eq_some_iff.1 hi).1
  rw [h i x hi]
  omega

theorem Numbered.mem_take (h : Numbered seq log) {k : Nat} (hx : x ∈ log.take k) : seq x ≤ k := by
  obtain ⟨i, hi⟩ := List.mem_iff_getElem?.1 hx
  rw [List.getElem?_take] at hi
  split at hi
  · rw [h i x hi]
    omega
  · cases hi

theorem Numbered.mem_drop (h : Numbered seq log) {k : Nat} : x ∈ log.drop k ↔ x ∈ log ∧ k < seq x := by
  constructor
  · intro hx
    obtain ⟨i, hi⟩ := List.mem_iff_getElem?.1 hx
    rw [List.getElem?_drop] at hi
    refine ⟨List.mem_of_mem_drop hx, ?_⟩
    rw [h _ x hi]
    omega
  · rintro ⟨hx, hk⟩
    rw [← List.take_append_drop k log] at hx
    rcases List.mem_append.1 hx with hx | hx
    · exact absurd (h.mem_take hx) (by omega)
    · exact hx

/-- The entries numbered above `a` and up to `b`. -/
theorem Numbered.between (h : Numbered seq log) {a b : Nat} (hab : a ≤ b) :
    log.filter (fun x => a < seq x ∧ seq x ≤ b) = (log.drop a).take (b - a) := by
  have hcut : log = log.take a ++ ((log.drop a).take (b - a) ++ log.drop b) := by
    have hdrop : log.drop b = (log.drop a).drop (b - a) := by
      rw [List.drop_drop]
      congr 1
      omega
    rw [hdrop, List.take_append_drop, List.take_append_drop]
  have htake : (log.drop a).take (b - a) = (log.take b).drop a := by rw [List.drop_take]
  have h1 : (log.take a).filter (fun x => a < seq x ∧ seq x ≤ b) = [] := by
    rw [List.filter_eq_nil_iff]
    intro x hx
    have := h.mem_take hx
    simp only [decide_eq_true_eq]
    omega
  have h2 : ((log.drop a).take (b - a)).filter (fun x => a < seq x ∧ seq x ≤ b) = (log.drop a).take (b - a) := by
    rw [List.filter_eq_self]
    intro x hx
    have ha := (h.mem_drop.1 (List.mem_of_mem_take hx)).2
    have hb := h.mem_take (List.mem_of_mem_drop (htake ▸ hx))
    simp only [decide_eq_true_eq]
    exact ⟨ha, hb⟩
  have h3 : (log.drop b).filter (fun x => a < seq x ∧ seq x ≤ b) = [] := by
    rw [List.filter_eq_nil_iff]
    intro x hx
    have := (h.mem_drop.1 hx).2
    simp only [decide_eq_true_eq]
    omega
  conv_lhs => rw [hcut]
  rw [List.filter_append, List.filter_append, h1, h2, h3, List.nil_append, List.append_nil]

/-- What comes later does not matter below. -/
theorem Numbered.between_grown {new : List α} (h : Numbered seq (log ++ new)) {a b : Nat} (hb : b ≤ log.length) :
    (log ++ new).filter (fun x => a < seq x ∧ seq x ≤ b) = log.filter (fun x => a < seq x ∧ seq x ≤ b) := by
  have hnew : new.filter (fun x => a < seq x ∧ seq x ≤ b) = [] := by
    rw [List.filter_eq_nil_iff]
    intro x hx
    have hd : x ∈ (log ++ new).drop log.length := by rwa [List.drop_left]
    have := (h.mem_drop.1 hd).2
    simp only [decide_eq_true_eq]
    omega
  rw [List.filter_append, hnew, List.append_nil]

/-- Going on from `b` where reading from `a` has stopped. -/
theorem Numbered.between_append (h : Numbered seq log) {a b c : Nat} (hab : a ≤ b) (hbc : b ≤ c) :
    log.filter (fun x => a < seq x ∧ seq x ≤ c) =
      log.filter (fun x => a < seq x ∧ seq x ≤ b) ++ log.filter (fun x => b < seq x ∧ seq x ≤ c) := by
  rw [h.between hab, h.between hbc, h.between (Nat.le_trans hab hbc)]
  have hsplit : c - a = (b - a) + (c - b) := by omega
  rw [hsplit, List.take_add, List.drop_drop]
  congr 3
  omega

end Lib
