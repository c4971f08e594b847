import Mathlib.Data.List.Basic
/-!
# Contents of a file

`writeAt z cs o d` is the contents `cs` after the bytes `d` are written at offset
`o`. Writing beyond the end fills the gap with `z`; writing nothing does nothing.

`foldl_partition` is about any actions applied in turn: some of them may be
taken first if each commutes with those it passes.
-/

namespace Lib

variable {α β : Type}

/-! ## Writing at an offset -/

/-- The contents after `d` is written at `o`. -/
def writeAt (z : α) (cs : List α) (o : Nat) (d : List α) : List α :=
  if d = [] then cs else cs.take o ++ List.replicate (o - cs.length) z ++ d ++ cs.drop (o + d.length)

@[simp] theorem writeAt_nil (z : α) (cs : List α) (o : Nat) : writeAt z cs o [] = cs := by
  simp [writeAt]

theorem writeAt_end (z : α) (cs d : List α) : writeAt z cs cs.length d = cs ++ d := by
  by_cases hd : d = []
  · simp [hd]
  · simp [writeAt, hd]

theorem getElem?_writeAt (z : α) (cs : List α) (o : Nat) (d : List α) (hd : d ≠ []) (i : Nat) :
    (writeAt z cs o d)[i]? =
      if o ≤ i ∧ i < o + d.length then d[i - o]?
      else if i < o ∧ cs.length ≤ i then some z
      else cs[i]? := by
  have hpre : (cs.take o ++ List.replicate (o - cs.length) z).length = o := by
    rw [List.length_append, List.length_take, List.length_replicate]
    omega
  simp only [writeAt, hd, if_false]
  rw [List.append_assoc, List.getElem?_append, hpre]
  by_cases h1 : i < o
  · have h2 : ¬ (o ≤ i ∧ i < o + d.length) := by omega
    rw [if_pos h1, if_neg h2, List.getElem?_append, List.length_take, List.getElem?_take]
    by_cases h3 : cs.length ≤ i
    · have h4 : ¬ i < min o cs.length := by omega
      have h5 : i - min o cs.length < o - cs.length := by omega
      rw [if_neg h4, if_pos ⟨h1, h3⟩, List.getElem?_replicate_of_lt h5]
    · have h4 : i < min o cs.length := by omega
      have h5 : ¬ (i < o ∧ cs.length ≤ i) := by omega
      rw [if_pos h4, if_neg h5, if_pos h1]
  · rw [if_neg h1, List.getElem?_append]
    have h5 : ¬ (i < o ∧ cs.length ≤ i) := by omega
    by_cases h2 : i < o + d.length
    · rw [if_pos (show i - o < d.length by omega), if_pos ⟨by omega, h2⟩]
    · have h3 : ¬ (o ≤ i ∧ i < o + d.length) := by omega
      rw [if_neg (show ¬ i - o < d.length by omega), if_neg h3, if_neg h5, List.getElem?_drop]
      congr 1
      omega

theorem length_writeAt (z : α) (cs : List α) (o : Nat) (d : List α) (hd : d ≠ []) :
    (writeAt z cs o d).length = max cs.length (o + d.length) := by
  simp only [writeAt, hd, if_false, List.length_append, List.length_take, List.length_replicate, List.length_drop]
  omega

/-- The same is written again without effect. -/
theorem writeAt_writeAt (z : α) (cs : List α) (o : Nat) (d : List α) :
    writeAt z (writeAt z cs o d) o d = writeAt z cs o d := by
  by_cases hd : d = []
  · subst hd
    rw [writeAt_nil]
  · refine List.ext_getElem? fun i => ?_
    rw [getElem?_writeAt _ _ _ _ hd, length_writeAt _ _ _ _ hd, getElem?_writeAt _ _ _ _ hd]
    by_cases hi : o ≤ i ∧ i < o + d.length
    · rw [if_pos hi, if_pos hi]
    · rw [if_neg hi, if_neg hi, if_neg (by omega)]

/-- Writes to ranges that do not meet can be done in either order. -/
theorem writeAt_comm (z : α) (cs : List α) {o o' : Nat} {d d' : List α}
    (h : o + d.length ≤ o' ∨ o' + d'.length ≤ o) :
    writeAt z (writeAt z cs o d) o' d' = writeAt z (writeAt z cs o' d') o d := by
  by_cases hd : d = []
  · simp [hd]
  by_cases hd' : d' = []
  · simp [hd']
  have hpos : 0 < d.length := List.length_pos_iff.2 hd
  have hpos' : 0 < d'.length := List.length_pos_iff.2 hd'
  apply List.ext_getElem?
  intro i
  simp only [getElem?_writeAt z _ _ _ hd, getElem?_writeAt z _ _ _ hd', length_writeAt z _ _ _ hd,
    length_writeAt z _ _ _ hd']
  grind

/-- Two writes one after the other are one. -/
theorem writeAt_append (z : α) (cs : List α) (o : Nat) (d d' : List α) :
    writeAt z (writeAt z cs o d) (o + d.length) d' = writeAt z cs o (d ++ d') := by
  by_cases hd : d = []
  · simp [hd]
  by_cases hd' : d' = []
  · simp [hd']
  have hdd : d ++ d' ≠ [] := by simp [hd]
  apply List.ext_getElem?
  intro i
  simp only [getElem?_writeAt z _ _ _ hd, getElem?_writeAt z _ _ _ hd', getElem?_writeAt z _ _ _ hdd,
    length_writeAt z _ _ _ hd, List.length_append, List.getElem?_append]
  grind

/-! ## Taking some actions first -/

section Reorder
variable (f : β → α → β)

theorem foldl_comm_of_forall {b : β} {x : α} {l : List α} (h : ∀ y ∈ l, ∀ b, f (f b x) y = f (f b y) x) :
    l.foldl f (f b x) = f (l.foldl f b) x := by
  induction l generalizing b with
  | nil => rfl
  | cons y l ih =>
    rw [List.foldl_cons, List.foldl_cons, h y List.mem_cons_self, ih fun w hw => h w (List.mem_cons_of_mem _ hw)]

/-- The actions that satisfy `p` may be taken first, if each of them commutes
with those before it that do not. -/
theorem foldl_partition (p : α → Bool) (l : List α) (b : β)
    (h : l.Pairwise fun x y => p x = false → p y = true → ∀ b, f (f b x) y = f (f b y) x) :
    (l.filter fun x => !p x).foldl f ((l.filter p).foldl f b) = l.foldl f b := by
  induction l generalizing b with
  | nil => rfl
  | cons x l ih =>
    obtain ⟨hx, hl⟩ := List.pairwise_cons.1 h
    rw [List.foldl_cons, ← ih (f b x) hl]
    cases hp : p x with
    | true => simp [hp]
    | false =>
      have hcomm : (l.filter p).foldl f (f b x) = f ((l.filter p).foldl f b) x := by
        apply foldl_comm_of_forall
        intro y hy
        exact hx y (List.mem_filter.1 hy).1 hp (List.mem_filter.1 hy).2
      simp [hp, hcomm]

end Reorder

end Lib
