import Mathlib.Data.List.Forall2
import Mathlib.Data.Option.Basic
/-!
# Doing steps again

Steps that can fail are run in order, up to the first that fails, or up to a limit. An
interrupted run leaves what its first steps have done. If doing these again changes
nothing that matters, a second run comes to what one run would have come to (`redo`).

What matters is a relation `R` on the states: `Alike R` steps fail together, and lead from
related states to related states.
-/

namespace Lib

variable {S : Type}

/-- The steps in order, at most `limit` of them; and whether all were done. -/
def runSteps : Option Nat → S → List (S → Option S) → S × Bool
  | _, s, [] => (s, true)
  | limit, s, c :: cs =>
    if limit = some 0 then (s, false)
    else
      match c s with
      | none => (s, false)
      | some s' => runSteps (limit.map (· - 1)) s' cs

/-- All of the steps, if none of them fails. -/
def doAll (s : S) (cs : List (S → Option S)) : Option S := cs.foldlM (fun s c => c s) s

@[simp] theorem doAll_nil (s : S) : doAll s [] = some s := rfl

theorem doAll_cons {s s' : S} {c : S → Option S} {cs : List (S → Option S)} :
    doAll s (c :: cs) = some s' ↔ ∃ t, c s = some t ∧ doAll t cs = some s' := by
  rw [doAll, List.foldlM_cons]
  exact Option.bind_eq_some_iff

theorem doAll_append {s s' : S} {cs ds : List (S → Option S)} :
    doAll s (cs ++ ds) = some s' ↔ ∃ t, doAll s cs = some t ∧ doAll t ds = some s' := by
  rw [doAll, List.foldlM_append]
  exact Option.bind_eq_some_iff

theorem doAll_inv {P : S → Prop} {s s' : S} {cs : List (S → Option S)}
    (hc : ∀ c ∈ cs, ∀ s s', P s → c s = some s' → P s') (hs : P s) (h : doAll s cs = some s') : P s' := by
  induction cs generalizing s with
  | nil =>
    cases h
    exact hs
  | cons c cs ih =>
    obtain ⟨s1, h1, h2⟩ := doAll_cons.1 h
    exact ih (fun c' hc' => hc c' (List.mem_cons_of_mem _ hc')) (hc c List.mem_cons_self s s1 hs h1) h2

/-- A run has done some of the first steps. -/
theorem runSteps_take (limit : Option Nat) (s : S) (cs : List (S → Option S)) :
    ∃ n, doAll s (cs.take n) = some (runSteps limit s cs).1 := by
  induction cs generalizing limit s with
  | nil => exact ⟨0, rfl⟩
  | cons c cs ih =>
    unfold runSteps
    split
    · exact ⟨0, rfl⟩
    · split
      · exact ⟨0, rfl⟩
      · rename_i s' hs
        obtain ⟨n, hn⟩ := ih (limit.map (· - 1)) s'
        refine ⟨n + 1, ?_⟩
        rw [List.take_succ_cons, doAll_cons]
        exact ⟨s', hs, hn⟩

theorem runSteps_append {s t : S} {cs : List (S → Option S)} (ds : List (S → Option S)) (h : doAll s cs = some t) :
    runSteps none s (cs ++ ds) = runSteps none t ds := by
  induction cs generalizing s with
  | nil =>
    cases h
    rfl
  | cons c cs ih =>
    obtain ⟨u, hu, h⟩ := doAll_cons.1 h
    rw [List.cons_append, runSteps, if_neg (by simp), hu]
    exact ih h

theorem runSteps_true {s : S} {limit : Option Nat} {cs : List (S → Option S)} (h : (runSteps limit s cs).2 = true) :
    doAll s cs = some (runSteps limit s cs).1 := by
  induction cs generalizing limit s with
  | nil => rfl
  | cons c cs ih =>
    unfold runSteps at h ⊢
    split at h
    · cases h
    · split at h
      · cases h
      · rename_i hl _ t ht
        rw [if_neg hl, doAll_cons]
        exact ⟨t, ht, ih h⟩

/-- From related states both steps fail, or both lead to related states. -/
def Alike (R : S → S → Prop) (c c' : S → Option S) : Prop := ∀ s t, R s t → Option.Rel R (c s) (c' t)

variable {R : S → S → Prop}

theorem Alike.some {c c' : S → Option S} (h : Alike R c c') {s t s' : S} (hr : R s t) (hs : c s = some s') :
    ∃ t', c' t = some t' ∧ R s' t' := by
  have h := h s t hr
  rw [hs] at h
  cases ht : c' t with
  | none =>
    rw [ht] at h
    cases h
  | some t' =>
    rw [ht] at h
    cases h with
    | some hr => exact ⟨t', rfl, hr⟩

theorem runSteps_alike {cs cs' : List (S → Option S)} (h : List.Forall₂ (Alike R) cs cs') {s t : S} (hr : R s t) :
    R (runSteps none s cs).1 (runSteps none t cs').1 ∧ (runSteps none s cs).2 = (runSteps none t cs').2 := by
  induction h generalizing s t with
  | nil => exact ⟨hr, rfl⟩
  | @cons c c' cs cs' halike _ ih =>
    rw [runSteps, runSteps, if_neg (by simp), if_neg (by simp)]
    have hc := halike s t hr
    cases hs : c s with
    | none =>
      cases ht : c' t with
      | none => exact ⟨hr, rfl⟩
      | some t' =>
        rw [hs, ht] at hc
        cases hc
    | some s' =>
      obtain ⟨t', ht, hr'⟩ := halike.some hr hs
      rw [ht]
      exact ih hr'

/-! ## Steps that have nothing left to do -/

/-- The step succeeds and changes nothing that matters. -/
def Keeps (R : S → S → Prop) (c : S → Option S) (s : S) : Prop := ∃ s', c s = some s' ∧ R s s'

theorem Keeps.alike (hR : Equivalence R) {c : S → Option S} {s t : S} (h : Keeps R c s) (hc : Alike R c c)
    (hr : R s t) : Keeps R c t := by
  obtain ⟨s', hs, hs'⟩ := h
  obtain ⟨t', ht, ht'⟩ := hc.some hr hs
  exact ⟨t', ht, hR.trans (hR.symm hr) (hR.trans hs' ht')⟩

theorem doAll_keeps (hR : Equivalence R) {cs : List (S → Option S)} (hc : ∀ c ∈ cs, Alike R c c) {s : S}
    (h : ∀ c ∈ cs, Keeps R c s) : ∃ s', doAll s cs = some s' ∧ R s s' := by
  induction cs generalizing s with
  | nil => exact ⟨s, rfl, hR.refl s⟩
  | cons c cs ih =>
    obtain ⟨s1, h1, hr1⟩ := h c List.mem_cons_self
    have hkeeps : ∀ c' ∈ cs, Keeps R c' s1 := fun c' hc' =>
      (h c' (List.mem_cons_of_mem _ hc')).alike hR (hc c' (List.mem_cons_of_mem _ hc')) hr1
    obtain ⟨s2, h2, hr2⟩ := ih (fun c' hc' => hc c' (List.mem_cons_of_mem _ hc')) hkeeps
    exact ⟨s2, doAll_cons.2 ⟨s1, h1, h2⟩, hR.trans hr1 hr2⟩

/-- Each step has nothing left to do once it is done, whatever the others do. -/
theorem keeps_of_doAll {cs : List (S → Option S)} (hdone : ∀ c ∈ cs, ∀ s s', c s = some s' → Keeps R c s')
    (hstay : ∀ c ∈ cs, ∀ c' ∈ cs, ∀ s s', Keeps R c s → c' s = some s' → Keeps R c s') {s s' : S}
    (h : doAll s cs = some s') : ∀ c ∈ cs, Keeps R c s' := by
  induction cs generalizing s with
  | nil => exact fun c hc => absurd hc List.not_mem_nil
  | cons c cs ih =>
    obtain ⟨s1, h1, h2⟩ := doAll_cons.1 h
    have hfirst : Keeps R c s' :=
      doAll_inv (fun c' hc' => hstay c List.mem_cons_self c' (List.mem_cons_of_mem _ hc'))
        (hdone c List.mem_cons_self s s1 h1) h2
    intro c' hc'
    rcases List.mem_cons.1 hc' with rfl | hc'
    · exact hfirst
    · exact ih (fun c hc => hdone c (List.mem_cons_of_mem _ hc))
        (fun c hc c' hc' => hstay c (List.mem_cons_of_mem _ hc) c' (List.mem_cons_of_mem _ hc')) h2 c' hc'

/-- What the first steps have done is done again without effect, the others are done as
they would have been: a run from where an interrupted one stopped ends where one that is
not interrupted ends. -/
theorem redo {cs cs' : List (S → Option S)} (h : List.Forall₂ (Alike R) cs cs') {s : S}
    (hagain : ∀ n P, doAll s (cs.take n) = some P → ∃ P', doAll P (cs'.take n) = some P' ∧ R P P')
    (limit : Option Nat) :
    R (runSteps none s cs).1 (runSteps none (runSteps limit s cs).1 cs').1 ∧
      (runSteps none s cs).2 = (runSteps none (runSteps limit s cs).1 cs').2 := by
  obtain ⟨n, hn⟩ := runSteps_take limit s cs
  obtain ⟨P', hP', hr⟩ := hagain n _ hn
  have hfirst : runSteps none s cs = runSteps none (runSteps limit s cs).1 (cs.drop n) := by
    conv_lhs => rw [← List.take_append_drop n cs]
    exact runSteps_append _ hn
  have hsecond : runSteps none (runSteps limit s cs).1 cs' = runSteps none P' (cs'.drop n) := by
    conv_lhs => rw [← List.take_append_drop n cs']
    exact runSteps_append _ hP'
  rw [hfirst, hsecond]
  exact runSteps_alike (List.forall₂_drop n h) hr

end Lib
